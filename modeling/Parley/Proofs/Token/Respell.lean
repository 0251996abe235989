/-
Putting other names in the place of names. Where names to be put in are given by the offsets of
those that make room for them, the layout of a text keeps its gaps and its other tokens and is
still a right one, since reading stops before any name in the same way; and the edits that put the
names in, in whatever order they are supplied, make one text of it.
-/
import Parley.Proofs.Parser.Blind
import Parley.Proofs.Text.Splice
import Parley.Proofs.Token.Spelling

namespace Parley

/-- Names to be put in, by the offsets of the names that they replace. -/
abbrev Renaming : Type := Nat → Option String

/-- The token of a lexeme with a name put in. -/
def Lexeme.respelled (ρ : Renaming) (l : Lexeme) : Token :=
  match l.token, ρ l.span.offset with
  | .name _, some word => .name word
  | t, _ => t

namespace Scan

def Stretch.respelled (ρ : Renaming) (offset : Nat) (x : Stretch) : Stretch :=
  match x.token, ρ offset with
  | some (.name _), some word => ⟨some (.name word), word.toList⟩
  | _, _ => x

def respelled (ρ : Renaming) : Nat → List Stretch → List Stretch
  | _, [] => []
  | n, x :: xs => x.respelled ρ n :: respelled ρ (n + byteLength x.text) xs

/-- The edits that put names in, in the order of the text. -/
def editsOf (ρ : Renaming) : Nat → List Stretch → List Edit
  | _, [] => []
  | n, x :: xs =>
    match x.token, ρ n with
    | some (.name _), some word => ⟨n, n + byteLength x.text, word⟩ :: editsOf ρ (n + byteLength x.text) xs
    | _, _ => editsOf ρ (n + byteLength x.text) xs

variable {ρ : Renaming}

/-! ## The layout -/

theorem tokens_respelled (p : Position) (xs : List Stretch) :
    (respelled ρ p.offset xs).filterMap (·.token) = (placed p xs).map (Lexeme.respelled ρ) := by
  induction xs generalizing p with
  | nil => rfl
  | cons x xs ih =>
    have ih := ih (p.after x.text)
    rw [Position.offset_after] at ih
    rcases x with ⟨_ | t, text⟩
    · exact ih
    · simp only [respelled, placed, List.map_cons, ← ih]
      unfold Stretch.respelled Lexeme.respelled
      cases t <;> cases hρ : ρ p.offset <;> simp [Span.startingAt, hρ]

/-- A keyword starts as names do. -/
theorem Shape.of_keyword {x : Stretch} {rest : List Char} {word : Keyword} (h : Shape rest x)
    (hx : x.token = some (.keyword word)) : ∃ c w, x.text = c :: w ∧ CharClass.startsName c = true := by
  cases h with
  | blank | comment | number | string | symbol => cases hx
  | word c w starts continues ends => exact ⟨c, w, rfl, starts⟩

theorem Shape.of_name {x : Stretch} {rest : List Char} {word : String} (h : Shape rest x) (hx : x.token = some (.name word)) :
    (∃ c w, x.text = c :: w ∧ CharClass.startsName c = true) ∧ x.text = word.toList ∧
      ∀ d ∈ rest.head?, CharClass.continuesName d = false := by
  cases h with
  | blank | comment | number | string | symbol => cases hx
  | word c w starts continues ends =>
    refine ⟨⟨c, w, rfl, starts⟩, ?_, ends⟩
    have hx : wordToken (c :: w) = .name word := Option.some.inj hx
    unfold wordToken at hx
    split at hx
    · cases hx
    · cases hx
      exact String.toList_ofList.symm

/-- Names put in change nothing that reading sees when it stops before a layout. -/
theorem sameEdge_respelled {xs : List Stretch} {rest : List Char} (h : Cut xs rest) (hρ : ∀ n, ∀ word ∈ ρ n, IsName word)
    (n : Nat) : SameEdge (textOf xs ++ rest) (textOf (respelled ρ n xs) ++ rest) := by
  cases xs with
  | nil => exact .inl rfl
  | cons x xs =>
    obtain ⟨c, w, hx, -⟩ := h.1
    rw [respelled, textOf_cons, textOf_cons]
    unfold Stretch.respelled
    split
    · rename_i word' word htoken hword
      obtain ⟨⟨d, v, hx', hstarts⟩, -⟩ := h.1.shape.of_name htoken
      obtain ⟨d', v', hchars, hstarts', -⟩ := (hρ n word hword).toList
      exact .inr ⟨d, d', by rw [hx']; rfl, by rw [hchars]; rfl, hstarts, hstarts'⟩
    · exact .inl (by rw [hx]; rfl)

/-- A right cut stays one when names are put in. -/
theorem Cut.respelled {xs : List Stretch} {rest : List Char} (h : Cut xs rest) (hρ : ∀ n, ∀ word ∈ ρ n, IsName word)
    (n : Nat) : Cut (respelled ρ n xs) rest := by
  induction xs generalizing n with
  | nil => trivial
  | cons x xs ih =>
    refine ⟨?_, ih h.2 _⟩
    -- what follows may be respelled too, but reading of `x` stops there as before
    have hedge := sameEdge_respelled h.2 hρ (n + byteLength x.text)
    unfold Stretch.respelled
    split
    · rename_i word' word htoken hword
      refine (Shape.name (hρ n word hword) (hedge.forall_head? (.inr fun d hd => ?_) ?_)).stands
      · simp [startsName_continues hd]
      · exact (h.1.shape.of_name htoken).2.2
    · exact h.1.of_sameEdge hedge

/-! ## The edits -/

/-- Edits lie where names to be put in are due, one behind the other. -/
theorem editsOf_places (n : Nat) (xs : List Stretch) (h : ∀ x ∈ xs, x.text ≠ []) :
    (∀ e ∈ editsOf ρ n xs, n ≤ e.start ∧ e.start < e.stop ∧ e.stop ≤ n + byteLength (textOf xs)) ∧
      (editsOf ρ n xs).Pairwise fun a b => a.stop ≤ b.start := by
  induction xs generalizing n with
  | nil => simp [editsOf]
  | cons x xs ih =>
    have hpos := byteLength_pos (h x List.mem_cons_self)
    obtain ⟨hin, hpair⟩ := ih (n + byteLength x.text) fun y hy => h y (List.mem_cons_of_mem _ hy)
    rw [textOf_cons, byteLength_append]
    have hin' : ∀ e ∈ editsOf ρ (n + byteLength x.text) xs, n ≤ e.start ∧ e.start < e.stop ∧
        e.stop ≤ n + (byteLength x.text + byteLength (textOf xs)) := fun e he => by
      have := hin e he
      omega
    unfold editsOf
    split
    · refine ⟨List.forall_mem_cons.2 ⟨?_, hin'⟩, List.pairwise_cons.2 ⟨fun e he => (hin e he).1, hpair⟩⟩
      dsimp only
      omega
    · exact ⟨hin', hpair⟩

theorem nodup_editsOf (n : Nat) {xs : List Stretch} (h : ∀ x ∈ xs, x.text ≠ []) : (editsOf ρ n xs).Nodup := by
  obtain ⟨hin, hpair⟩ := editsOf_places (ρ := ρ) n xs h
  refine hpair.imp_of_mem fun {a b} ha _ hab => ?_
  rintro rfl
  have := (hin a ha).2.1
  omega

/-- An edit of a renaming replaces a name of the layout by the name due there. -/
theorem mem_editsOf {p : Position} {xs : List Stretch} {e : Edit} : e ∈ editsOf ρ p.offset xs ↔
    ∃ l ∈ placed p xs, (∃ word, l.token = .name word) ∧ ρ l.span.offset = some e.text ∧ e.start = l.span.offset ∧
      e.stop = l.span.stop := by
  induction xs generalizing p with
  | nil => simp [editsOf, placed]
  | cons x xs ih =>
    have ih := @ih (p.after x.text)
    rw [Position.offset_after] at ih
    rcases x with ⟨_ | t, text⟩
    · exact ih
    · unfold editsOf placed
      dsimp only at ih ⊢
      split
      · rename_i word' word htoken hword
        obtain rfl := Option.some.inj htoken
        rw [List.mem_cons, ih]
        constructor
        · rintro (rfl | ⟨l, hl, h⟩)
          · exact ⟨_, List.mem_cons_self, ⟨word', rfl⟩, hword, rfl, rfl⟩
          · exact ⟨l, List.mem_cons_of_mem _ hl, h⟩
        · rintro ⟨l, hl, hname, hρ, hstart, hstop⟩
          rcases List.mem_cons.1 hl with rfl | hl
          · rcases e with ⟨start, stop, text'⟩
            obtain rfl := Option.some.inj (hword.symm.trans hρ)
            exact .inl (by rw [Edit.mk.injEq]; exact ⟨hstart, hstop, rfl⟩)
          · exact .inr ⟨l, hl, hname, hρ, hstart, hstop⟩
      · rename_i hnone
        rw [ih]
        constructor
        · rintro ⟨l, hl, h⟩
          exact ⟨l, List.mem_cons_of_mem _ hl, h⟩
        · rintro ⟨l, hl, ⟨word, hname⟩, hρ, h⟩
          rcases List.mem_cons.1 hl with rfl | hl
          · exact absurd hρ (hnone word e.text (congrArg some hname))
          · exact ⟨l, hl, ⟨word, hname⟩, hρ, h⟩

/-- Putting names in by edits is putting them into the layout; `w` stands before what is laid out. -/
theorem spliced_editsOf (n : Nat) (w : List Char) (xs : List Stretch) :
    Edit.Spliced n (editsOf ρ (n + byteLength w) xs) (w ++ textOf xs) (w ++ textOf (respelled ρ (n + byteLength w) xs)) := by
  induction xs generalizing n w with
  | nil => exact .rest n _
  | cons x xs ih =>
    -- a stretch that stays joins what stands before; `w` grows until the next edit takes it
    have hskip := ih n (w ++ x.text)
    rw [byteLength_append, ← Nat.add_assoc, List.append_assoc, List.append_assoc] at hskip
    unfold editsOf respelled Stretch.respelled
    split
    · have hrest := ih (n + byteLength w + byteLength x.text) []
      rw [byteLength_nil, Nat.add_zero, List.nil_append, List.nil_append] at hrest
      rw [textOf_cons, textOf_cons, ← List.append_assoc, ← List.append_assoc]
      exact .edit rfl rfl hrest
    · rw [textOf_cons, textOf_cons]
      exact hskip

/-- The edits of a renaming, in whatever order, are applied, and give the text of the layout with
the names put in. -/
theorem applyAll_editsOf {xs : List Stretch} {source : String} {edits : List Edit} (h : ∀ x ∈ xs, x.text ≠ [])
    (htext : textOf xs = source.toList) (hedits : edits.Perm (editsOf ρ 0 xs)) :
    Edit.applyAll source edits = .ok (String.ofList (textOf (respelled ρ 0 xs))) := by
  obtain ⟨hin, hpair⟩ := editsOf_places (ρ := ρ) 0 xs h
  have hlt : (editsOf ρ 0 xs).Pairwise fun a b => a.start < b.start :=
    hpair.imp_of_mem fun ha _ hle => Nat.lt_of_lt_of_le (hin _ ha).2.1 hle
  have hspliced := spliced_editsOf (ρ := ρ) 0 [] xs
  rw [byteLength_nil, List.nil_append, List.nil_append, htext] at hspliced
  exact Edit.applyAll_of_spliced hedits.symm hlt hspliced

end Scan

/-- A text is another one with names put in: it has the same gaps and tokens but for these names. -/
def Respelled (ρ : Renaming) (source fixed : String) : Prop :=
  ∃ xs, Scan.Cut xs [] ∧ Scan.textOf xs = source.toList ∧
    Scan.Cut (Scan.respelled ρ 0 xs) [] ∧ Scan.textOf (Scan.respelled ρ 0 xs) = fixed.toList

theorem Respelled.tokenize {ρ : Renaming} {source fixed : String} {ls : List Lexeme} (h : Respelled ρ source fixed)
    (hls : tokenize source = .ok ls) : ∃ ls', tokenize fixed = .ok ls' ∧ tokensOf ls' = ls.map (Lexeme.respelled ρ) := by
  obtain ⟨xs, hcut, htext, hcut', htext'⟩ := h
  have hread := Scan.tokenize_ok_iff.2 ⟨xs, hcut, htext, rfl⟩
  obtain rfl : Scan.placed .first xs = ls := Except.ok.inj (hread.symm.trans hls)
  refine ⟨_, Scan.tokenize_ok_iff.2 ⟨_, hcut', htext', rfl⟩, ?_⟩
  rw [← Scan.tokens_respelled]
  exact Scan.tokens_placed _ _

end Parley
