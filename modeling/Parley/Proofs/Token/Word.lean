/-
Words. A text that has the form of a name is one token, whatever keyword it begins with, ends with or
contains. What this token is depends on the whole word only: the keyword of that spelling if the word is
reserved, and else a name. The keywords that are read, their spellings and the reserved words agree.
-/
import Parley.Proofs.Token.Spelling

namespace Parley

/-! ## The form of names -/

/-- A letter from `A` to `Z` or from `a` to `z`, or an underscore. -/
def StartsWord (c : Char) : Prop := 'A' ≤ c ∧ c ≤ 'Z' ∨ 'a' ≤ c ∧ c ≤ 'z' ∨ c = '_'

/-- Such a character, or a digit from `0` to `9`. -/
def ContinuesWord (c : Char) : Prop := StartsWord c ∨ '0' ≤ c ∧ c ≤ '9'

/-- A text with the form of a name, be it reserved or not. -/
def IsWord (text : String) : Prop :=
  ∃ c w, text.toList = c :: w ∧ StartsWord c ∧ ∀ d ∈ w, ContinuesWord d

theorem startsName_iff {c : Char} : CharClass.startsName c = true ↔ StartsWord c := by
  rw [Scan.startsName_iff_isAlpha, Scan.isAlpha_iff_toNat, or_assoc]
  exact Iff.rfl

theorem continuesName_iff {c : Char} : CharClass.continuesName c = true ↔ ContinuesWord c := by
  rw [ContinuesWord, ← startsName_iff, Scan.continuesName_iff_isDigit, Scan.isDigit_iff_toNat]
  exact Iff.rfl

theorem isWord_iff {text : String} : IsWord text ↔ ∃ c w, text.toList = c :: w ∧ CharClass.startsName c = true ∧
    ∀ d ∈ w, CharClass.continuesName d = true := by
  simp only [IsWord, startsName_iff, continuesName_iff]

theorem IsWord.continues {text : String} (h : IsWord text) : ∀ c ∈ text.toList, CharClass.continuesName c = true := by
  obtain ⟨c, w, hchars, hstarts, hcontinues⟩ := isWord_iff.1 h
  rw [hchars, List.forall_mem_cons]
  exact ⟨Scan.startsName_continues hstarts, hcontinues⟩

/-! ## The tables of keywords -/

/-- The keywords that are read from words are those whose spellings are reserved. -/
theorem mem_reserved_iff {word : String} : word ∈ Keyword.reserved ↔ ∃ k, Keyword.ofSpelling? word = some k := by
  constructor
  · intro h
    simp only [Keyword.reserved, List.mem_cons, List.not_mem_nil, or_false] at h
    rcases h with rfl | rfl | rfl | rfl | rfl | rfl | rfl | rfl | rfl | rfl | rfl | rfl | rfl <;> exact ⟨_, rfl⟩
  · rintro ⟨k, hk⟩
    rw [← Keyword.ofSpelling?_eq_some_iff.1 hk]
    cases k <;> decide

theorem not_mem_reserved_iff {word : String} : word ∉ Keyword.reserved ↔ Keyword.ofSpelling? word = none := by
  rw [mem_reserved_iff, Option.eq_none_iff_forall_ne_some, not_exists]

theorem isName_iff {word : String} : IsName word ↔ IsWord word ∧ word ∉ Keyword.reserved := by
  rw [not_mem_reserved_iff]
  constructor
  · intro h
    exact ⟨isWord_iff.2 h.toList, h.2.2⟩
  · rintro ⟨hword, hnone⟩
    obtain ⟨c, w, hchars, hstarts, -⟩ := isWord_iff.1 hword
    refine ⟨?_, List.all_eq_true.2 hword.continues, hnone⟩
    rw [hchars]
    exact hstarts

theorem isWord_of_reserved {word : String} (h : word ∈ Keyword.reserved) : IsWord word := by
  obtain ⟨k, hk⟩ := mem_reserved_iff.1 h
  rw [← Keyword.ofSpelling?_eq_some_iff.1 hk]
  exact isWord_iff.2 (Scan.keyword_chars k)

/-! ## Words as texts -/

/-- A word is read whole, as what its table says it is. -/
theorem tokenize_of_isWord {word : String} (h : IsWord word) : tokenize word =
    .ok [⟨Scan.wordToken word.toList, word, ⟨0, byteLength word.toList, 1, 1⟩⟩] := by
  obtain ⟨c, w, hchars, hstarts, hcontinues⟩ := isWord_iff.1 h
  have hshape : Scan.Shape [] ⟨some (Scan.wordToken (c :: w)), c :: w⟩ :=
    .word c w hstarts hcontinues (fun d hd => by cases hd)
  rw [← hchars] at hshape
  refine Scan.tokenize_ok_iff.2 ⟨[⟨some (Scan.wordToken word.toList), word.toList⟩], ⟨hshape.stands, trivial⟩, ?_, ?_⟩
  · exact List.append_nil _
  · rw [Scan.placed, String.ofList_toList]
    rfl

theorem wordToken_of_name {word : String} (h : word ∉ Keyword.reserved) : Scan.wordToken word.toList = .name word := by
  rw [Scan.wordToken, String.ofList_toList, not_mem_reserved_iff.1 h]

theorem wordToken_of_reserved {word : String} (h : word ∈ Keyword.reserved) :
    ∃ k : Keyword, k.spelling = word ∧ Scan.wordToken word.toList = .keyword k := by
  obtain ⟨k, hk⟩ := mem_reserved_iff.1 h
  refine ⟨k, Keyword.ofSpelling?_eq_some_iff.1 hk, ?_⟩
  rw [Scan.wordToken, String.ofList_toList, hk]

/-- A name that is the only token of a text can be read from it. -/
theorem isName_of_tokenize {text word : String} {l : Lexeme} (h : tokenize text = .ok [l]) (hl : l.token = .name word) :
    IsName word := by
  obtain ⟨xs, hcut, -, hplaced⟩ := Scan.tokenize_ok_iff.1 h
  have htokens := Scan.tokens_placed .first xs
  rw [hplaced, List.map_singleton, hl] at htokens
  exact Scan.spellable_of_cut hcut (.name word) (htokens ▸ List.mem_singleton_self _)

/-- A text is read as the one name that it spells just if it is a word and not reserved; it is a word and read as one
token of another kind, which shows and was read as just this text, exactly if it is reserved; and it is a word exactly
if it is read as one keyword or one name with all of its characters. -/
theorem words_read_whole (text : String) :
    ((∃ l, tokenize text = .ok [l] ∧ l.token = .name text) ↔ IsWord text ∧ text ∉ Keyword.reserved) ∧
    ((IsWord text ∧ ∃ l, tokenize text = .ok [l] ∧ (∀ name, l.token ≠ .name name) ∧ l.token.display = text ∧ l.text = text) ↔
      text ∈ Keyword.reserved) ∧
    (IsWord text ↔ ∃ t, tokenize text = .ok [⟨t, text, ⟨0, byteLength text.toList, 1, 1⟩⟩] ∧
      (t = .name text ∨ ∃ k : Keyword, t = .keyword k ∧ k.spelling = text)) := by
  refine ⟨⟨?_, ?_⟩, ⟨?_, ?_⟩, ⟨?_, ?_⟩⟩
  · rintro ⟨l, htok, hl⟩
    exact isName_iff.1 (isName_of_tokenize htok hl)
  · rintro ⟨hword, hnot⟩
    exact ⟨_, tokenize_of_isWord hword, wordToken_of_name hnot⟩
  · rintro ⟨hword, l, htok, hl, -⟩
    by_contra hnot
    rw [tokenize_of_isWord hword, Except.ok.injEq, List.cons.injEq] at htok
    refine hl text ?_
    rw [← htok.1, wordToken_of_name hnot]
  · intro hreserved
    have hword := isWord_of_reserved hreserved
    obtain ⟨k, hspelling, htoken⟩ := wordToken_of_reserved hreserved
    refine ⟨hword, _, tokenize_of_isWord hword, ?_, ?_, rfl⟩
    · intro name
      rw [htoken]
      simp
    · rw [htoken]
      exact hspelling
  · intro hword
    refine ⟨_, tokenize_of_isWord hword, ?_⟩
    by_cases hreserved : text ∈ Keyword.reserved
    · obtain ⟨k, hspelling, htoken⟩ := wordToken_of_reserved hreserved
      exact .inr ⟨k, htoken, hspelling⟩
    · exact .inl (wordToken_of_name hreserved)
  · rintro ⟨t, htok, rfl | ⟨k, rfl, rfl⟩⟩
    · exact (isName_iff.1 (isName_of_tokenize htok rfl)).1
    · exact isWord_iff.2 (Scan.keyword_chars k)

/-- Words that start with a keyword, and one that is a keyword. -/
example : ["entry_point", "actors", "send"].map (fun word => (tokenize word).toOption.map (·.map (·.token))) =
    [some [.name "entry_point"], some [.name "actors"], some [.keyword .send]] := by cbv

end Parley
