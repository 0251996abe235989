/-
Which chunk an error is charged to. The lexemes of a text stand in the order of their offsets, so a
cut of the lexemes that lies in a chunk, or right behind its last lexeme, is found again by the
offset at the cut: the error there is charged to this chunk.
-/
import Parley.Parser.Recovery
import Parley.Proofs.Parser.Failure
import Parley.Proofs.Token.Layout

namespace Parley

namespace Recovery

/-! ## Lexemes in order -/

/-- The offset at which lexemes start, or the end of the text. -/
def offsetOf (stop : Nat) (ls : List Lexeme) : Nat := ls.head?.elim stop (·.span.offset)

@[simp] theorem offset_spanOf (stop : Span) (ls : List Lexeme) : (spanOf stop ls).offset = offsetOf stop.offset ls := by
  cases ls <;> rfl

/-- Lexemes one after the other, before the end of the text. -/
def InOrder (stop : Nat) (ls : List Lexeme) : Prop :=
  ls.Pairwise (fun l m => l.span.offset < m.span.offset) ∧ ∀ l ∈ ls, l.span.offset < stop

theorem InOrder.lt {stop : Nat} {us vs : List Lexeme} (h : InOrder stop (us ++ vs)) {l : Lexeme} (hl : l ∈ us) :
    l.span.offset < offsetOf stop vs := by
  rcases vs with _ | ⟨v, vs⟩
  · exact h.2 l (List.mem_append_left _ hl)
  · exact (List.pairwise_append.1 h.1).2.2 l hl v List.mem_cons_self

theorem InOrder.right {stop : Nat} {us vs : List Lexeme} (h : InOrder stop (us ++ vs)) : InOrder stop vs :=
  ⟨(List.pairwise_append.1 h.1).2.1, fun l hl => h.2 l (List.mem_append_right _ hl)⟩

theorem InOrder.left {stop : Nat} {us vs : List Lexeme} (h : InOrder stop (us ++ vs)) : InOrder stop us :=
  ⟨(List.pairwise_append.1 h.1).1, fun l hl => h.2 l (List.mem_append_left _ hl)⟩

theorem InOrder.offsetOf_le {stop : Nat} {us vs : List Lexeme} (h : InOrder stop (us ++ vs)) :
    offsetOf stop (us ++ vs) ≤ offsetOf stop vs := by
  rcases us with _ | ⟨u, us⟩
  · exact Nat.le_refl _
  · exact Nat.le_of_lt (h.lt List.mem_cons_self)

/-- Lexemes that stand before others end where these start. -/
theorem InOrder.until {stop : Nat} {us vs : List Lexeme} (h : InOrder stop (us ++ vs)) : InOrder (offsetOf stop vs) us :=
  ⟨h.left.1, fun _ hl => h.lt hl⟩

theorem InOrder.offsetOf_le_stop {stop : Nat} {ls : List Lexeme} (h : InOrder stop ls) : offsetOf stop ls ≤ stop := by
  rw [← List.append_nil ls] at h ⊢
  exact h.offsetOf_le

theorem startOf_append {w : List Lexeme} (h : w ≠ []) (stop : Nat) (us : List Lexeme) :
    startOf w = offsetOf stop (w ++ us) := by
  obtain ⟨l, w, rfl⟩ := List.exists_cons_of_ne_nil h
  rfl

/-! ## Cuts -/

/-- A cut of the lexemes of some chunks lies in one of them, or behind its last lexeme; before the
first lexeme of a chunk only if nothing is on the left. -/
theorem cut_flatten : ∀ {ws : List (List Lexeme)} {us vs : List Lexeme}, ws ≠ [] → us ++ vs = ws.flatten →
    ∃ as ds us' vs', ws = as ++ (us' ++ vs') :: ds ∧ us = as.flatten ++ us' ∧ vs = vs' ++ ds.flatten ∧
      (as ≠ [] → us' ≠ [])
  | [], _, _, hne, _ => absurd rfl hne
  | w :: ws, us, vs, _, h => by
    -- the cut lies inside `w`, right behind it, or among the chunks after it
    rw [List.flatten_cons, List.append_eq_append_iff] at h
    rcases h with ⟨vs', rfl, rfl⟩ | ⟨us', rfl, h⟩
    · exact ⟨[], ws, us, vs', rfl, rfl, rfl, fun h => absurd rfl h⟩
    · by_cases hus : us' = [] ∨ ws = []
      · rcases hus with rfl | rfl
        · exact ⟨[], ws, w, [], by simp, by simp, by simpa using h.symm, fun h => absurd rfl h⟩
        · simp only [List.flatten_nil, List.nil_eq, List.append_eq_nil_iff] at h
          obtain ⟨rfl, rfl⟩ := h
          exact ⟨[], [], w, [], by simp, by simp, rfl, fun h => absurd rfl h⟩
      · rw [not_or] at hus
        obtain ⟨as, ds, us'', vs'', rfl, rfl, rfl, hne⟩ := cut_flatten hus.2 h.symm
        refine ⟨w :: as, ds, us'', vs'', rfl, by simp, rfl, fun _ => ?_⟩
        by_cases has : as = []
        · subst has
          simpa using hus.1
        · exact hne has

/-- An error at a cut is charged to the chunk with the cut. -/
theorem chargedChunk_cut {stop : Nat} {as ds : List (List Lexeme)} {us vs : List Lexeme}
    (hne : ∀ w ∈ as ++ (us ++ vs) :: ds, w ≠ []) (horder : InOrder stop (as ++ (us ++ vs) :: ds).flatten)
    (hus : as ≠ [] → us ≠ []) :
    chargedChunk (as ++ (us ++ vs) :: ds) (offsetOf stop (vs ++ ds.flatten)) = as.length := by
  generalize hx : offsetOf stop (vs ++ ds.flatten) = x
  have hb : us ++ vs ≠ [] := hne _ (by simp)
  have hsplit : (as ++ (us ++ vs) :: ds).flatten = as.flatten ++ us ++ (vs ++ ds.flatten) := by simp
  rw [hsplit] at horder
  have hbefore : ∀ l ∈ as.flatten ++ us, l.span.offset < x := fun l hl => hx ▸ horder.lt hl
  have has : ∀ w ∈ as, decide (startOf w ≤ x) = true := by
    intro w hw
    obtain ⟨l, ms, rfl⟩ := List.exists_cons_of_ne_nil (hne w (by simp [hw]))
    have := hbefore l (List.mem_append_left _ (List.mem_flatten.2 ⟨_, hw, List.mem_cons_self⟩))
    exact decide_eq_true (Nat.le_of_lt this)
  have hstart : startOf (us ++ vs) ≤ x ∧ (us ≠ [] → startOf (us ++ vs) < x) := by
    rcases us with _ | ⟨u, us⟩
    · rw [startOf_append hb stop ds.flatten, List.nil_append, hx]
      exact ⟨Nat.le_refl _, fun h => absurd rfl h⟩
    · have := hbefore u (by simp)
      exact ⟨Nat.le_of_lt this, fun _ => this⟩
  have howned : (as ++ (us ++ vs) :: ds).takeWhile (fun w => decide (startOf w ≤ x)) =
      as ++ (us ++ vs) :: ds.takeWhile (fun w => decide (startOf w ≤ x)) := by
    rw [List.takeWhile_append_of_pos has, List.takeWhile_cons, if_pos (decide_eq_true hstart.1)]
  unfold chargedChunk
  simp only [howned]
  by_cases hnext : ∃ d ds', ds = d :: ds' ∧ startOf d = x
  · -- the error stands on the first token of the chunk after
    obtain ⟨d, ds, rfl, hd⟩ := hnext
    have hlast : ds.takeWhile (fun w => decide (startOf w ≤ x)) = [] := by
      rcases ds with _ | ⟨d', ds⟩
      · rfl
      · obtain ⟨l, ms, rfl⟩ := List.exists_cons_of_ne_nil (hne d (by simp))
        have hrest : InOrder stop ((l :: ms) ++ (d' :: ds).flatten) := horder.right.right
        have hlt := hrest.lt List.mem_cons_self
        rw [List.flatten_cons, ← startOf_append (hne d' (by simp))] at hlt
        have hl : l.span.offset = x := hd
        rw [List.takeWhile_cons_of_neg (by simp only [decide_eq_true_eq]; omega)]
    rw [List.takeWhile_cons, if_pos (decide_eq_true (Nat.le_of_eq hd)), hlast]
    simp [hd]
  · -- the error stands before the chunk after, and behind the start of this one unless it is the first
    have hlast : ds.takeWhile (fun w => decide (startOf w ≤ x)) = [] := by
      rcases ds with _ | ⟨d, ds⟩
      · rfl
      · have hle := horder.right.offsetOf_le
        rw [hx, List.flatten_cons, ← startOf_append (hne d (by simp))] at hle
        have hd : startOf d ≠ x := fun h => hnext ⟨d, ds, rfl, h⟩
        rw [List.takeWhile_cons_of_neg (by simp only [decide_eq_true_eq]; omega)]
    have hinside : ¬(0 < as.length ∧ startOf (us ++ vs) = x) := fun h => by
      have := hstart.2 (hus (List.length_pos_iff.1 h.1))
      omega
    simp only [hlast, List.length_append, List.length_cons, List.length_nil]
    simpa using fun h h' => absurd ⟨h, h'⟩ hinside

/-! ## The errors of the other chunks -/

/-- The error of a chunk that is read by itself up to the span at its end. -/
def ownError? (x : List Lexeme × Span) : Option ParseError :=
  match Grammar.chunk.readAll x.1 x.2 with
  | .ok _ => none
  | .error e => some e

theorem readAll_of_ownError? {x : List Lexeme × Span} {e : ParseError} (h : ownError? x = some e) :
    Grammar.chunk.readAll x.1 x.2 = .error e := by
  unfold ownError? at h
  split at h
  · cases h
  · cases h
    assumption

/-- The error of a chunk read by itself, unless the strict error speaks for it. -/
def ownError (charged : Nat) (x : (List Lexeme × Span) × Nat) : Option ParseError :=
  if x.2 = charged then none
  else match Grammar.chunk.readAll x.1.1 x.1.2 with
    | .ok _ => none
    | .error e => some e

theorem otherErrors_eq (chunks : List (List Lexeme × Span)) (charged : Nat) :
    otherErrors chunks charged = chunks.zipIdx.filterMap (ownError charged) := by
  unfold otherErrors ownError
  rfl

theorem ownError_eq (charged : Nat) (x : List Lexeme × Span) (i : Nat) :
    ownError charged (x, i) = if i = charged then none else ownError? x := by
  unfold ownError ownError?
  rfl

theorem ownErrors_behind (charged : Nat) : ∀ (xs : List (List Lexeme × Span)) (i : Nat), charged < i →
    (xs.zipIdx i).filterMap (ownError charged) = xs.filterMap ownError?
  | [], _, _ => rfl
  | x :: xs, i, h => by
    have ih := ownErrors_behind charged xs (i + 1) (by omega)
    rw [List.zipIdx_cons, List.filterMap_cons, List.filterMap_cons, ih, ownError_eq, if_neg (by omega)]

/-- If no chunk before the charged one has an error, the errors are those of the chunks behind it. -/
theorem ownErrors_charged (stop : Span) (b : List Lexeme) (ds : List (List Lexeme)) :
    ∀ (as : List (List Lexeme)) (i : Nat), (∀ w ∈ as, ∀ end', ownError? (w, end') = none) →
      ((withEnds stop (as ++ b :: ds)).zipIdx i).filterMap (ownError (i + as.length)) = (withEnds stop ds).filterMap ownError?
  | [], i, _ => by
    rw [List.nil_append, List.length_nil, Nat.add_zero, withEnds, List.zipIdx_cons, List.filterMap_cons, ownError_eq, if_pos rfl]
    exact ownErrors_behind i _ _ (by omega)
  | w :: as, i, h => by
    have ih := ownErrors_charged stop b ds as (i + 1) fun v hv => h v (List.mem_cons_of_mem _ hv)
    have hindex : i + (w :: as).length = i + 1 + as.length := by rw [List.length_cons]; omega
    rw [List.cons_append, withEnds, List.zipIdx_cons, List.filterMap_cons, ownError_eq, h w List.mem_cons_self, ite_self, hindex]
    exact ih

end Recovery

/-- The lexemes of a text stand in order. -/
theorem inOrder_of_tokenize {source : String} {ls : List Lexeme} (h : tokenize source = .ok ls) :
    Recovery.InOrder (Span.atEnd source).offset ls := by
  obtain ⟨xs, hcut, htext, rfl⟩ := Scan.tokenize_ok_iff.1 h
  obtain ⟨hin, hpair⟩ := Scan.placed_places .first xs hcut.text_ne_nil
  rw [htext] at hin
  constructor
  · refine hpair.imp_of_mem fun {l m} hl hm hlm => ?_
    have := (hin l hl).2.2
    unfold Span.stop at hlm
    omega
  · intro l hl
    have := hin l hl
    rw [Span.offset_atEnd]
    simp only [Span.stop, Position.first] at this
    omega

end Parley
