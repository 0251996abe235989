/-
Edits put into a text. What edits make of a text is said from left to right: the stretches between
their ranges stay, and each range has the text of its edit in its place. Replacing the last range
first gives just that, since a replacement changes nothing before its range; and it is enough to
compare each edit with the next one, since edits that lie one behind the other are apart. Edits that
cannot be told apart by their ranges are refused, so the order in which edits are supplied never
matters.
-/
import Parley.Text.Edit
import Mathlib.Data.List.Pairwise
import Mathlib.Data.List.Perm.Subperm

namespace Parley

/-! ## Places in a text -/

theorem byteLength_eq_zero {cs : List Char} (h : byteLength cs = 0) : cs = [] := by
  cases cs with
  | nil => rfl
  | cons c cs =>
    have := c.utf8Size_pos
    rw [byteLength_cons] at h
    omega

theorem takeBytes_prefix (w cs : List Char) : takeBytes (byteLength w) (w ++ cs) = w := by
  induction w with
  | nil =>
    rcases cs with _ | ⟨c, cs⟩
    · rfl
    · have := c.utf8Size_pos
      rw [List.nil_append, byteLength_nil, takeBytes, if_neg (by omega)]
  | cons c w ih =>
    rw [List.cons_append, byteLength_cons, takeBytes, if_pos (Nat.le_add_right _ _), Nat.add_sub_cancel_left, ih]

theorem dropBytes_prefix (w cs : List Char) : dropBytes (byteLength w) (w ++ cs) = cs := by
  rw [dropBytes, takeBytes_prefix, List.drop_left]

theorem isBoundary_prefix (w cs : List Char) : isBoundary (w ++ cs) (byteLength w) = true := by
  rw [isBoundary, takeBytes_prefix, beq_self_eq_true]

/-- A text can be cut before byte `n`: a character starts there, or the text ends. -/
def CutAt (cs : List Char) (n : Nat) : Prop := ∃ front rest, cs = front ++ rest ∧ byteLength front = n

theorem isBoundary_iff {cs : List Char} {n : Nat} : isBoundary cs n = true ↔ CutAt cs n := by
  constructor
  · intro h
    exact ⟨takeBytes n cs, dropBytes n cs, (takeBytes_append_dropBytes n cs).symm, eq_of_beq h⟩
  · rintro ⟨front, rest, rfl, rfl⟩
    exact isBoundary_prefix front rest

theorem CutAt.le {cs : List Char} {n : Nat} (h : CutAt cs n) : n ≤ byteLength cs := by
  obtain ⟨front, rest, rfl, rfl⟩ := h
  rw [byteLength_append]
  omega

theorem cutAt_prefix (front rest : List Char) : CutAt (front ++ rest) (byteLength front) := ⟨front, rest, rfl, rfl⟩

/-- A text that can be cut behind a beginning of it can be cut in what comes after. -/
theorem CutAt.behind {front cs : List Char} {n : Nat} (h : CutAt (front ++ cs) n) (hn : byteLength front ≤ n) :
    ∃ gap rest, cs = gap ++ rest ∧ n = byteLength front + byteLength gap := by
  obtain ⟨before, rest, hcut, rfl⟩ := h
  rcases List.append_eq_append_iff.1 hcut with ⟨gap, rfl, rfl⟩ | ⟨gap, rfl, rfl⟩
  · exact ⟨gap, rest, rfl, byteLength_append front gap⟩
  · rw [byteLength_append] at hn
    obtain rfl : gap = [] := byteLength_eq_zero (by omega)
    exact ⟨[], cs, rfl, by simp⟩

namespace Edit

/-! ## Ranges -/

/-- The range of an edit lies in a text and cuts no character. -/
structure Within (cs : List Char) (e : Edit) : Prop where
  ordered : e.start ≤ e.stop
  inside : e.stop ≤ byteLength cs
  starts : CutAt cs e.start
  stops : CutAt cs e.stop

theorem fits_iff {cs : List Char} {e : Edit} : e.fits cs = true ↔ e.Within cs := by
  simp only [fits, Bool.and_eq_true, decide_eq_true_eq, isBoundary_iff]
  constructor
  · rintro ⟨⟨hordered, hstarts⟩, hstops⟩
    exact ⟨hordered, hstops.le, hstarts, hstops⟩
  · rintro ⟨hordered, -, hstarts, hstops⟩
    exact ⟨⟨hordered, hstarts⟩, hstops⟩

/-- Edits that start at different bytes, where the one that starts first ends no later than the other starts. -/
structure Apart (a b : Edit) : Prop where
  ne : a.start ≠ b.start
  first : a.start < b.start → a.stop ≤ b.start
  second : b.start < a.start → b.stop ≤ a.start

theorem Apart.symm {a b : Edit} (h : Apart a b) : Apart b a := ⟨h.ne.symm, h.second, h.first⟩

/-- An edit that starts before another and ends no later than that starts. -/
def Before (a b : Edit) : Prop := a.start < b.start ∧ a.stop ≤ b.start

theorem Before.apart {a b : Edit} (h : Before a b) : Apart a b :=
  ⟨Nat.ne_of_lt h.1, fun _ => h.2, fun hlt => absurd hlt (Nat.lt_asymm h.1)⟩

theorem le_iff {a b : Edit} : le a b = true ↔ a.start < b.start ∨ a.start = b.start ∧ a.stop ≤ b.stop := by
  simp [le]

theorem Apart.before {a b : Edit} (h : Apart a b) (hle : le a b = true) : Before a b := by
  have hne := h.ne
  have hlt : a.start < b.start := by
    rw [le_iff] at hle
    omega
  exact ⟨hlt, h.first hlt⟩

/-- Where the ranges are not reversed, no edit starts in the one before it just if all lie one behind the other. -/
theorem firstOverlap?_eq_none_iff {edits : List Edit} (hordered : ∀ e ∈ edits, e.start ≤ e.stop) :
    firstOverlap? edits = none ↔ edits.Pairwise Before := by
  induction edits with
  | nil => simp [firstOverlap?]
  | cons a edits ih =>
    rw [List.forall_mem_cons] at hordered
    have ih := ih hordered.2
    cases edits with
    | nil => simp [firstOverlap?]
    | cons b rest =>
      have hb := hordered.2 b List.mem_cons_self
      have ha := hordered.1
      rw [List.pairwise_cons, ← ih, firstOverlap?, List.forall_mem_cons]
      by_cases hover : b.start < a.stop ∨ b.start = a.start
      · rw [if_pos hover]
        refine ⟨nofun, ?_⟩
        rintro ⟨⟨⟨hlt, hle⟩, -⟩, -⟩
        omega
      · rw [if_neg hover]
        refine ⟨fun hnone => ⟨⟨⟨by omega, by omega⟩, fun c hc => ?_⟩, hnone⟩, And.right⟩
        obtain ⟨hlt, hle⟩ := (List.pairwise_cons.1 (ih.1 hnone)).1 c hc
        exact ⟨by omega, by omega⟩

/-- The first overlap is at the start of an edit that starts in the one before it, or where that starts. -/
theorem exists_of_firstOverlap? {edits : List Edit} {offset : Nat} (h : firstOverlap? edits = some offset) :
    ∃ a b, [a, b].Sublist edits ∧ b.start = offset ∧ (b.start < a.stop ∨ b.start = a.start) := by
  fun_induction firstOverlap? edits with
  | case1 a b rest hover => exact ⟨a, b, by simp, Option.some.inj h, hover⟩
  | case2 a b rest _ ih =>
    obtain ⟨c, d, hsub, hstart, hover⟩ := ih h
    exact ⟨c, d, hsub.cons a, hstart, hover⟩
  | case3 => cases h

/-! ## Order -/

theorem pairwise_sorted (edits : List Edit) : (edits.mergeSort le).Pairwise fun a b => le a b = true := by
  refine List.pairwise_mergeSort (fun a b c => ?_) (fun a b => ?_) edits
  · simp only [le_iff]
    omega
  · simp only [Bool.or_eq_true, le_iff]
    omega

/-- Edits that start one after the other, in whatever order they are supplied, are sorted into that order. -/
theorem mergeSort_eq {edits sorted : List Edit} (hlt : sorted.Pairwise fun a b => a.start < b.start) (h : sorted.Perm edits) :
    edits.mergeSort le = sorted := by
  have hle : sorted.Pairwise fun a b => le a b = true := hlt.imp fun h => le_iff.2 (.inl h)
  refine ((List.mergeSort_perm _ _).trans h.symm).eq_of_pairwise (fun a b ha hb hab hba => ?_) (pairwise_sorted edits) hle
  have ha := h.symm.subset (List.mem_mergeSort.1 ha)
  by_contra hne
  have hstarts : sorted.Pairwise fun a b => a.start ≠ b.start := hlt.imp Nat.ne_of_lt
  have hsymm : Std.Symm fun a b : Edit => a.start ≠ b.start := ⟨fun _ _ => Ne.symm⟩
  have := hstarts.forall ha hb hne
  rw [le_iff] at hab hba
  omega

/-- Sorted edits lie one behind the other just if any two of them are apart. -/
theorem pairwise_before_iff (edits : List Edit) : (edits.mergeSort le).Pairwise Before ↔ edits.Pairwise Apart := by
  rw [← (List.mergeSort_perm edits le).pairwise_iff Apart.symm]
  constructor
  · exact fun h => h.imp Before.apart
  · exact fun h => (h.and (pairwise_sorted edits)).imp fun h => h.1.before h.2

/-! ## Edited texts -/

/-- A text that starts at byte `offset`, and what edits make of it: the stretches between their ranges stay, and each
range has the text of its edit in its place. -/
inductive Spliced : Nat → List Edit → List Char → List Char → Prop
  | rest (offset : Nat) (cs : List Char) : Spliced offset [] cs cs
  | edit {offset : Nat} {gap old cs ds : List Char} {e : Edit} {edits : List Edit}
      (starts : e.start = offset + byteLength gap) (stops : e.stop = e.start + byteLength old)
      (behind : Spliced e.stop edits cs ds) :
      Spliced offset (e :: edits) (gap ++ old ++ cs) (gap ++ e.text.toList ++ ds)

section Spliced

variable {offset : Nat} {edits : List Edit} {front cs ds : List Char}

theorem Spliced.offset_le (h : Spliced offset edits cs ds) : ∀ e ∈ edits, offset ≤ e.start := by
  induction h with
  | rest => exact nofun
  | edit starts stops _ ih =>
    refine List.forall_mem_cons.2 ⟨by omega, fun e he => ?_⟩
    have := ih e he
    omega

theorem Spliced.stop_le_start (h : Spliced offset edits cs ds) : edits.Pairwise fun a b => a.stop ≤ b.start := by
  induction h with
  | rest => exact .nil
  | edit _ _ behind ih => exact .cons behind.offset_le ih

theorem Spliced.within (h : Spliced offset edits cs ds) (hfront : byteLength front = offset) :
    ∀ e ∈ edits, e.Within (front ++ cs) := by
  induction h generalizing front with
  | rest => exact nofun
  | @edit offset gap old cs ds e edits starts stops _ ih =>
    have hstart : e.start = byteLength (front ++ gap) := by rw [byteLength_append, hfront, starts]
    have hstop : e.stop = byteLength (front ++ gap ++ old) := by rw [byteLength_append, ← hstart, stops]
    have htext : front ++ (gap ++ old ++ cs) = front ++ gap ++ old ++ cs := by simp
    rw [htext]
    refine List.forall_mem_cons.2 ⟨⟨by omega, ?_, ?_, ?_⟩, ih hstop.symm⟩
    · rw [byteLength_append, hstop]
      omega
    · rw [hstart, List.append_assoc (front ++ gap)]
      exact cutAt_prefix _ _
    · rw [hstop]
      exact cutAt_prefix _ _

theorem applyTo_between {e : Edit} (front old rest : List Char) (hstart : e.start = byteLength front)
    (hstop : e.stop = byteLength (front ++ old)) : e.applyTo (front ++ old ++ rest) = front ++ e.text.toList ++ rest := by
  rw [applyTo, hstop, dropBytes_prefix, hstart, List.append_assoc front, takeBytes_prefix]

/-- Replacing the last range first, and so on, gives the edited text. -/
theorem Spliced.foldr (h : Spliced offset edits cs ds) (hfront : byteLength front = offset) :
    edits.foldr applyTo (front ++ cs) = front ++ ds := by
  induction h generalizing front with
  | rest => rfl
  | @edit offset gap old cs ds e edits starts stops _ ih =>
    have hstart : e.start = byteLength (front ++ gap) := by rw [byteLength_append, hfront, starts]
    have hstop : e.stop = byteLength (front ++ gap ++ old) := by rw [byteLength_append, ← hstart, stops]
    have htext : front ++ (gap ++ old ++ cs) = front ++ gap ++ old ++ cs := by simp
    rw [List.foldr_cons, htext, ih hstop.symm, applyTo_between _ _ _ hstart hstop]
    simp

/-- When the turn of an edit comes, the edits behind it have left its range where it was. -/
theorem Spliced.within_foldr (h : Spliced offset edits cs ds) (hfront : byteLength front = offset) {before after : List Edit}
    {e : Edit} (hedits : edits = before ++ e :: after) : e.Within (after.foldr applyTo (front ++ cs)) := by
  induction h generalizing front before with
  | rest => simp at hedits
  | @edit offset gap old cs ds b edits starts stops behind ih =>
    have hstart : b.start = byteLength (front ++ gap) := by rw [byteLength_append, hfront, starts]
    have hstop : b.stop = byteLength (front ++ gap ++ old) := by rw [byteLength_append, ← hstart, stops]
    have htext : front ++ (gap ++ old ++ cs) = front ++ gap ++ old ++ cs := by simp
    rw [htext]
    cases before with
    | nil =>
      obtain ⟨rfl, rfl⟩ := List.cons.inj hedits
      have hhere : Spliced offset [b] (gap ++ old ++ ds) (gap ++ b.text.toList ++ ds) := .edit starts stops (.rest _ ds)
      have hwithin := hhere.within hfront b (List.mem_singleton_self b)
      rwa [behind.foldr hstop.symm, List.append_assoc, List.append_assoc, ← List.append_assoc gap]
    | cons b before => exact ih hstop.symm (List.cons.inj hedits).2

/-- Edits that lie in a text one behind the other make a text of it. -/
theorem exists_spliced (hwithin : ∀ e ∈ edits, e.Within (front ++ cs)) (hfront : ∀ e ∈ edits, byteLength front ≤ e.start)
    (hbefore : edits.Pairwise Before) : ∃ ds, Spliced (byteLength front) edits cs ds := by
  induction edits generalizing front cs with
  | nil => exact ⟨cs, .rest _ cs⟩
  | cons e edits ih =>
    rw [List.forall_mem_cons] at hwithin hfront
    obtain ⟨hfirst, hbefore⟩ := List.pairwise_cons.1 hbefore
    obtain ⟨gap, rest, rfl, hstart⟩ := hwithin.1.starts.behind hfront.1
    rw [← List.append_assoc] at hwithin
    have hordered := hwithin.1.ordered
    obtain ⟨old, rest, rfl, hstop⟩ := hwithin.1.stops.behind (by rw [byteLength_append]; omega)
    rw [← List.append_assoc] at hwithin
    have hlength : byteLength (front ++ gap ++ old) = e.stop := by rw [hstop, byteLength_append]
    obtain ⟨ds, hds⟩ := ih hwithin.2 (fun b hb => hlength ▸ (hfirst b hb).2) hbefore
    rw [byteLength_append, ← hstart] at hstop
    rw [← List.append_assoc]
    exact ⟨gap ++ e.text.toList ++ ds, .edit hstart hstop (hlength ▸ hds)⟩

end Spliced

/-! ## Applying edits -/

/-- Why edits in their order are refused, if they are. -/
def refusal? (cs : List Char) (sorted : List Edit) : Option EditError :=
  match sorted.find? (fun e => !e.fits cs) with
  | some e => some (.outOfBounds e.start e.stop (byteLength cs))
  | none => (firstOverlap? sorted).map .overlap

theorem applyAll_eq (text : String) (edits : List Edit) : applyAll text edits =
    match refusal? text.toList (edits.mergeSort le) with
    | some e => .error e
    | none => .ok (String.ofList ((edits.mergeSort le).foldr applyTo text.toList)) := by
  unfold applyAll refusal?
  dsimp only
  cases (edits.mergeSort le).find? fun e => !e.fits text.toList with
  | some e => rfl
  | none => cases firstOverlap? (edits.mergeSort le) <;> rfl

section Apply

variable {text : String} {edits edits' : List Edit}

theorem applyAll_singleton {e : Edit} (h : e.fits text.toList = true) :
    applyAll text [e] = .ok (String.ofList (e.applyTo text.toList)) := by
  simp [applyAll, firstOverlap?, h]

/-- Edits are refused since a range does not lie in the text, or else since two are not apart; if neither, they are applied. -/
theorem applyAll_cases (text : String) (edits : List Edit) :
    (∃ e ∈ edits, ¬e.Within text.toList ∧
      applyAll text edits = .error (.outOfBounds e.start e.stop (byteLength text.toList))) ∨
    ((∀ e ∈ edits, e.Within text.toList) ∧ ∃ a b, [a, b].Subperm edits ∧ ¬Apart a b ∧ a.start ≤ b.start ∧
      applyAll text edits = .error (.overlap b.start)) ∨
    ((∀ e ∈ edits, e.Within text.toList) ∧ edits.Pairwise Apart ∧
      applyAll text edits = .ok (String.ofList ((edits.mergeSort le).foldr applyTo text.toList))) := by
  have hperm := List.mergeSort_perm edits le
  rw [applyAll_eq]
  unfold refusal?
  cases hfind : (edits.mergeSort le).find? (fun e => !e.fits text.toList) with
  | some e =>
    have hmem := hperm.subset (List.mem_of_find?_eq_some hfind)
    have hout := List.find?_some hfind
    rw [Bool.not_eq_true', ← Bool.not_eq_true, fits_iff] at hout
    exact .inl ⟨e, hmem, hout, rfl⟩
  | none =>
    have hwithin : ∀ e ∈ edits.mergeSort le, e.Within text.toList := by
      simpa only [List.find?_eq_none, Bool.not_eq_true', Bool.not_eq_false, fits_iff] using hfind
    have hwithin' : ∀ e ∈ edits, e.Within text.toList := fun e he => hwithin e (hperm.symm.subset he)
    have hordered : ∀ e ∈ edits.mergeSort le, e.start ≤ e.stop := fun e he => (hwithin e he).ordered
    right
    cases hover : firstOverlap? (edits.mergeSort le) with
    | some offset =>
      obtain ⟨a, b, hsub, rfl, hstart⟩ := exists_of_firstOverlap? hover
      have hle : le a b = true := by simpa using (pairwise_sorted edits).sublist hsub
      refine .inl ⟨hwithin', a, b, hsub.subperm.trans hperm.subperm, fun hapart => ?_, ?_, rfl⟩
      · obtain ⟨hlt, hstop⟩ := hapart.before hle
        omega
      · rw [le_iff] at hle
        omega
    | none =>
      exact .inr ⟨hwithin', (pairwise_before_iff edits).1 ((firstOverlap?_eq_none_iff hordered).1 hover), rfl⟩

theorem Apart.of_subperm {a b : Edit} (hapart : edits.Pairwise Apart) (h : [a, b].Subperm edits) : Apart a b := by
  obtain ⟨l, hperm, hsub⟩ := h
  have hpair : [a, b].Pairwise Apart := (hapart.sublist hsub).perm hperm Apart.symm
  simpa using hpair

theorem applyAll_ok_iff :
    (∃ result, applyAll text edits = .ok result) ↔ (∀ e ∈ edits, e.Within text.toList) ∧ edits.Pairwise Apart := by
  constructor
  · rintro ⟨result, h⟩
    rcases applyAll_cases text edits with ⟨e, -, -, hfail⟩ | ⟨-, a, b, -, -, -, hfail⟩ | ⟨hwithin, hapart, -⟩
    · cases hfail.symm.trans h
    · cases hfail.symm.trans h
    · exact ⟨hwithin, hapart⟩
  · rintro ⟨hwithin, hapart⟩
    rcases applyAll_cases text edits with ⟨e, he, hout, -⟩ | ⟨-, a, b, hsub, hnot, -⟩ | ⟨-, -, happly⟩
    · exact absurd (hwithin e he) hout
    · exact absurd (Apart.of_subperm hapart hsub) hnot
    · exact ⟨_, happly⟩

/-- Edits that make a text of a text are applied and give it. -/
theorem applyAll_of_spliced {sorted : List Edit} {ds : List Char} (hperm : sorted.Perm edits)
    (hlt : sorted.Pairwise fun a b => a.start < b.start) (h : Spliced 0 sorted text.toList ds) :
    applyAll text edits = .ok (String.ofList ds) := by
  have hwithin : ∀ e ∈ edits, e.Within text.toList := fun e he => h.within byteLength_nil e (hperm.symm.subset he)
  have hsorted := mergeSort_eq hlt hperm
  have hapart : edits.Pairwise Apart := by
    rw [← pairwise_before_iff, hsorted]
    exact (hlt.and h.stop_le_start).imp id
  rcases applyAll_cases text edits with ⟨e, he, hout, -⟩ | ⟨-, a, b, hsub, hnot, -⟩ | ⟨-, -, happly⟩
  · exact absurd (hwithin e he) hout
  · exact absurd (Apart.of_subperm hapart hsub) hnot
  · rw [happly, hsorted]
    exact congrArg (fun cs => Except.ok (String.ofList cs)) (h.foldr byteLength_nil)

theorem spliced_of_applyAll {result : String} (h : applyAll text edits = .ok result) :
    ((edits.mergeSort le).Pairwise fun a b => a.start < b.start) ∧
      Spliced 0 (edits.mergeSort le) text.toList result.toList := by
  obtain ⟨hwithin, hapart⟩ := applyAll_ok_iff.1 ⟨result, h⟩
  have hbefore := (pairwise_before_iff edits).2 hapart
  have hlt : (edits.mergeSort le).Pairwise fun a b => a.start < b.start := hbefore.imp And.left
  obtain ⟨ds, hds⟩ : ∃ ds, Spliced 0 (edits.mergeSort le) text.toList ds :=
    @exists_spliced _ [] text.toList (fun e he => hwithin e (List.mem_mergeSort.1 he)) (fun e _ => Nat.zero_le _) hbefore
  rw [applyAll_of_spliced (List.mergeSort_perm edits le) hlt hds] at h
  obtain rfl := Except.ok.inj h
  exact ⟨hlt, by rwa [String.toList_ofList]⟩

/-! ## The order of supply -/

/-- An edit with nothing to put in. -/
def blank (e : Edit) : Edit := { e with text := "" }

theorem firstOverlap?_blank (edits : List Edit) : firstOverlap? (edits.map blank) = firstOverlap? edits := by
  fun_induction firstOverlap? edits with
  | case1 a b rest hover => simp [firstOverlap?, blank, hover]
  | case2 a b rest hover ih =>
    rw [← ih]
    simp [firstOverlap?, blank, hover]
  | case3 edits hshort =>
    rcases edits with _ | ⟨a, _ | ⟨b, rest⟩⟩
    · rfl
    · rfl
    · exact absurd rfl (hshort a b rest)

theorem refusal?_blank (cs : List Char) (edits : List Edit) : refusal? cs (edits.map blank) = refusal? cs edits := by
  unfold refusal?
  rw [firstOverlap?_blank, List.find?_map]
  have hfits : (fun e => !fits cs e) ∘ blank = fun e => !fits cs e := rfl
  rw [hfits]
  cases edits.find? fun e => !fits cs e <;> rfl

theorem sorted_blank_eq (h : edits.Perm edits') : (edits.mergeSort le).map blank = (edits'.mergeSort le).map blank := by
  have hsorted : ∀ es : List Edit, ((es.mergeSort le).map blank).Pairwise fun a b => le a b = true := fun es =>
    List.pairwise_map.2 (pairwise_sorted es)
  refine (((List.mergeSort_perm _ _).trans h).trans (List.mergeSort_perm _ _).symm).map blank |>.eq_of_pairwise ?_
    (hsorted edits) (hsorted edits')
  intro a b ha hb hab hba
  obtain ⟨a, -, rfl⟩ := List.mem_map.1 ha
  obtain ⟨b, -, rfl⟩ := List.mem_map.1 hb
  rw [le_iff] at hab hba
  simp only [blank, mk.injEq, and_true] at hab hba ⊢
  omega

/-- The order in which edits are supplied does not matter. -/
theorem applyAll_perm (h : edits.Perm edits') : applyAll text edits' = applyAll text edits := by
  cases hresult : applyAll text edits with
  | ok result =>
    obtain ⟨hlt, hspliced⟩ := spliced_of_applyAll hresult
    rw [applyAll_of_spliced ((List.mergeSort_perm _ _).trans h) hlt hspliced, String.ofList_toList]
  | error e =>
    have hrefused := refusal?_blank text.toList
    rw [applyAll_eq, ← hrefused, sorted_blank_eq h, hrefused] at hresult
    rw [applyAll_eq]
    cases hrefusal : refusal? text.toList (edits'.mergeSort le) with
    | some e' => rwa [hrefusal] at hresult
    | none =>
      rw [hrefusal] at hresult
      cases hresult

/-- Edits are applied just if every range lies in the text and cuts no character, and any two edits are apart. The text
is then what they make of it from left to right; each edit finds its range in the text as it is when its turn comes. An
edit whose range does not fit is reported before any two that overlap, and the order in which edits are supplied does not
matter. -/
theorem applyAll_exact (text : String) (edits : List Edit) :
    ((∃ result, applyAll text edits = .ok result) ↔ (∀ e ∈ edits, e.Within text.toList) ∧ edits.Pairwise Apart) ∧
    (∀ result, applyAll text edits = .ok result ↔ ∃ sorted, sorted.Perm edits ∧
      (sorted.Pairwise fun a b => a.start < b.start) ∧ Spliced 0 sorted text.toList result.toList) ∧
    ((∃ result, applyAll text edits = .ok result) → ∀ before e after, edits.mergeSort le = before ++ e :: after →
      e.Within (after.foldr applyTo text.toList)) ∧
    ((∃ e ∈ edits, ¬e.Within text.toList) → ∃ e ∈ edits, ¬e.Within text.toList ∧
      applyAll text edits = .error (.outOfBounds e.start e.stop (byteLength text.toList))) ∧
    ((∀ e ∈ edits, e.Within text.toList) → ¬edits.Pairwise Apart → ∃ a b, [a, b].Subperm edits ∧ ¬Apart a b ∧
      a.start ≤ b.start ∧ applyAll text edits = .error (.overlap b.start)) ∧
    ∀ edits', edits.Perm edits' → applyAll text edits' = applyAll text edits := by
  refine ⟨applyAll_ok_iff, fun result => ⟨fun h => ?_, ?_⟩, ?_, ?_, ?_, fun _ => applyAll_perm⟩
  · obtain ⟨hlt, hspliced⟩ := spliced_of_applyAll h
    exact ⟨_, List.mergeSort_perm edits le, hlt, hspliced⟩
  · rintro ⟨sorted, hperm, hlt, hspliced⟩
    rw [applyAll_of_spliced hperm hlt hspliced, String.ofList_toList]
  · rintro ⟨result, h⟩ before e after hsorted
    exact (spliced_of_applyAll h).2.within_foldr byteLength_nil hsorted
  · rintro ⟨e, he, hout⟩
    rcases applyAll_cases text edits with hfail | ⟨hwithin, -⟩ | ⟨hwithin, -⟩
    · exact hfail
    · exact absurd (hwithin e he) hout
    · exact absurd (hwithin e he) hout
  · intro hwithin hnot
    rcases applyAll_cases text edits with ⟨e, he, hout, -⟩ | ⟨-, hfail⟩ | ⟨-, hapart, -⟩
    · exact absurd (hwithin e he) hout
    · exact hfail
    · exact absurd hapart hnot

end Apply

/-- Two names put into `"é Ofer, call chek(x)"`, the second one first. -/
def twoNames : List Edit := [⟨14, 18, "check"⟩, ⟨3, 7, "Öffer"⟩]

theorem spliced_twoNames :
    Spliced 0 twoNames.reverse "é Ofer, call chek(x)".toList "é Öffer, call check(x)".toList :=
  @Spliced.edit 0 "é ".toList "Ofer".toList _ _ _ _ (by decide) (by decide)
    (@Spliced.edit 7 ", call ".toList "chek".toList "(x)".toList _ _ _ (by decide) (by decide) (.rest 18 _))

/-- The second letter of a name and then the name. -/
def nestedNames : List Edit := [⟨5, 6, "f"⟩, ⟨3, 7, "Öffer"⟩]

/-- Two names are put in, however they are supplied; an edit that cuts the first letter is refused, also where another
starts with it; and an edit inside another one is refused. -/
theorem applyAll_of_two_names :
    applyAll "é Ofer, call chek(x)" twoNames = .ok "é Öffer, call check(x)" ∧
    applyAll "é Ofer, call chek(x)" twoNames.reverse = .ok "é Öffer, call check(x)" ∧
    (∀ before e after, twoNames.mergeSort le = before ++ e :: after →
      e.Within (after.foldr applyTo "é Ofer, call chek(x)".toList)) ∧
    ¬Within "é Ofer, call chek(x)".toList ⟨1, 2, ""⟩ ∧
    applyAll "é Ofer, call chek(x)" [⟨1, 2, ""⟩, ⟨1, 2, ""⟩] = .error (.outOfBounds 1 2 21) ∧
    (∀ e ∈ nestedNames, e.Within "é Ofer, call chek(x)".toList) ∧
    ¬nestedNames.Pairwise Apart ∧
    applyAll "é Ofer, call chek(x)" nestedNames = .error (.overlap 5) := by
  obtain ⟨-, hok, hturns, -, -, hperm⟩ := applyAll_exact "é Ofer, call chek(x)" twoNames
  have happly : applyAll "é Ofer, call chek(x)" twoNames = .ok "é Öffer, call check(x)" :=
    (hok _).2 ⟨_, twoNames.reverse_perm, by decide, spliced_twoNames⟩
  have hcut : ¬Within "é Ofer, call chek(x)".toList ⟨1, 2, ""⟩ := by
    rw [← fits_iff]
    decide
  have hwithin : ∀ e ∈ nestedNames, e.Within "é Ofer, call chek(x)".toList := by
    simp only [← fits_iff]
    decide
  have hapart : ¬nestedNames.Pairwise Apart := by
    intro h
    have := (List.pairwise_cons.1 h).1 ⟨3, 7, "Öffer"⟩ (by simp)
    exact absurd (this.second (by decide)) (by decide)
  refine ⟨happly, (hperm _ twoNames.reverse_perm.symm).trans happly, hturns ⟨_, happly⟩, hcut, ?_, hwithin, hapart, ?_⟩
  · obtain ⟨e, he, -, h⟩ := (applyAll_exact "é Ofer, call chek(x)" [⟨1, 2, ""⟩, ⟨1, 2, ""⟩]).2.2.2.1 ⟨_, List.mem_cons_self, hcut⟩
    have hlength : byteLength "é Ofer, call chek(x)".toList = 21 := by decide
    obtain rfl : e = ⟨1, 2, ""⟩ := by simpa using he
    rw [h, hlength]
  · obtain ⟨a, b, hsub, hnot, hle, h⟩ := (applyAll_exact "é Ofer, call chek(x)" nestedNames).2.2.2.2.1 hwithin
      (by simpa using hapart)
    have hpair : [a, b].Perm nestedNames := hsub.perm_of_length_le (Nat.le_refl 2)
    have hstart : b.start = 5 := by
      have hb : b ∈ nestedNames := hpair.subset (by simp)
      have hinner : ⟨5, 6, "f"⟩ ∈ [a, b] := hpair.symm.subset (by simp [nestedNames])
      grind [nestedNames]
    rw [h, hstart]

end Edit

end Parley
