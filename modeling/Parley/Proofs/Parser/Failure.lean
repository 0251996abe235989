/-
Where reading to the end fails. The lexemes are cut at the furthest mismatch: those before it begin
a reading, nothing that goes on with the lexeme there is read to the end, and the error names that
lexeme, or the end of the text if there is none.
-/
import Parley.Parser.Parse
import Parley.Proofs.Parser.Reads

namespace Parley

/-- The place where lexemes start, or the given one if there are none. -/
def spanOf (stop : Span) (ls : List Lexeme) : Span := ls.head?.elim stop (·.span)

namespace Parser

variable {α : Type} {p : Parser α} {L : Readings α}

/-- A cut of the lexemes `us ++ vs` that a parser refuses: `us` begins a reading, and with the
lexeme after it no reading reaches the end. -/
structure RefusedAt (p : Parser α) (L : Readings α) (us vs : List Lexeme) : Prop where
  viable : ∃ z a, L (us ++ z) a
  refused : ∀ l rest, vs = l :: rest → ∀ more, ((p <* atEnd) (us ++ l :: more)).result = none

/-- A parser that does not reach the end has a furthest mismatch, and is refused there. -/
theorem Reads.refusedAt (h : Reads p L) {ts : List Lexeme} (hn : ((p <* atEnd) ts).result = none) :
    ∃ us vs m, ts = us ++ vs ∧ ((p <* atEnd) ts).furthest = some m ∧ vs.length = m.left ∧ RefusedAt p L us vs := by
  obtain ⟨m, hm⟩ := Option.ne_none_iff_exists'.1 (h.explained_to_end hn)
  obtain ⟨us, vs, z, a, rfl, hleft, hz⟩ := h.viable_to_end hm
  refine ⟨us, vs, m, rfl, hm, hleft, ⟨z, a, hz⟩, ?_⟩
  rintro l rest rfl more
  rw [List.append_cons] at hn hm ⊢
  apply h.stays_refused hn hm
  rw [List.length_cons] at hleft
  omega

/-- The error at a mismatch names what stands there. -/
theorem errorAt_cut (us vs : List Lexeme) (stop : Span) {m : Mismatch} (h : vs.length = m.left) :
    (errorAt (us ++ vs) stop (some m)).span = spanOf stop vs ∧
      (errorAt (us ++ vs) stop (some m)).found = vs.head?.map (·.token) := by
  have hdrop : (us ++ vs).drop ((us ++ vs).length - m.left) = vs := by
    rw [← h, List.length_append, Nat.add_sub_cancel, List.drop_left]
  unfold errorAt
  simp only [Option.getD_some, hdrop]
  cases vs <;> exact ⟨rfl, rfl⟩

theorem mem_inOrder {e : Expectation} {expected : List Expectation} : e ∈ Expectation.inOrder expected ↔ e ∈ expected := by
  rw [Expectation.inOrder, List.mem_mergeSort, List.mem_eraseDups]

/-- Of two things expected, the one with the smaller description is listed first. -/
theorem inOrder_pair {e e' : Expectation} (h : e'.describe < e.describe) : Expectation.inOrder [e, e'] = [e', e] := by
  have hne : e ≠ e' := fun heq => String.lt_irrefl _ (heq ▸ h)
  have hafter : ¬e.describe ≤ e'.describe := String.not_le.2 h
  have hdups : [e, e'].eraseDups = [e, e'] := by simp [List.eraseDups_cons, hne.symm]
  simp [Expectation.inOrder, hdups, List.mergeSort, List.MergeSort.Internal.splitInTwo, hafter]

/-- The error at a mismatch lists what was expected there. -/
theorem mem_expected_errorAt {ts : List Lexeme} {stop : Span} {m : Mismatch} {e : Expectation} :
    e ∈ (errorAt ts stop (some m)).expected ↔ e ∈ m.expected := by
  have hsorted : e ∈ Expectation.inOrder m.expected ↔ e ∈ m.expected := mem_inOrder
  rw [← hsorted]
  unfold errorAt
  simp only [Option.getD_some]
  split <;> rfl

theorem readAll_ok_iff {ts : List Lexeme} (stop : Span) : (∃ a, p.readAll ts stop = .ok a) ↔ (p ts).result ≠ none := by
  unfold readAll
  rcases p ts with ⟨_ | ⟨a, rest⟩, m⟩
  · simp
  · simp

/-- Reading that fails says what stands at the furthest mismatch. -/
theorem readAll_error_iff {ts : List Lexeme} {stop : Span} {e : ParseError} :
    p.readAll ts stop = .error e ↔ (p ts).result = none ∧ e = errorAt ts stop (p ts).furthest := by
  unfold readAll
  rcases p ts with ⟨_ | ⟨a, rest⟩, m⟩
  · simp [eq_comm]
  · simp

/-- The error of reading stands on one of the lexemes, or at the end if it has found nothing. -/
theorem place_of_error {ts : List Lexeme} {stop : Span} {e : ParseError} (h : p.readAll ts stop = .error e) :
    (∃ l ∈ ts, e.span = l.span ∧ e.found = some l.token) ∨ e.span = stop ∧ e.found = none := by
  obtain ⟨-, rfl⟩ := readAll_error_iff.1 h
  unfold errorAt
  simp only
  split
  · exact .inr ⟨rfl, rfl⟩
  · rename_i l ls hdrop
    exact .inl ⟨l, List.drop_subset _ _ (by rw [hdrop]; exact List.mem_cons_self), rfl, rfl⟩

/-- The error of reading to the end stands at a cut where reading is refused. -/
theorem Reads.readAll_error (h : Reads p L) {ts : List Lexeme} {stop : Span} {e : ParseError}
    (he : (p <* atEnd).readAll ts stop = .error e) :
    ∃ us vs, ts = us ++ vs ∧ RefusedAt p L us vs ∧ e.span = spanOf stop vs ∧ e.found = vs.head?.map (·.token) := by
  obtain ⟨hn, rfl⟩ := readAll_error_iff.1 he
  obtain ⟨us, vs, m, rfl, hm, hleft, hcut⟩ := h.refusedAt hn
  refine ⟨us, vs, rfl, hcut, ?_⟩
  rw [hm]
  exact errorAt_cut us vs stop hleft

end Parser

end Parley
