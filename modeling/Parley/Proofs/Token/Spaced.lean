/-
Spelling and reading are inverse to each other. Tokens spelled one after the other with a space
between any two are read back as they are, each from its spelling; and a string literal that was read
is spelled as it was written, unless it holds a tab, which is spelled as an escape.
-/
import Parley.Proofs.Token.Place
import Mathlib

namespace Parley

open Scan

/-! ## Literals -/

theorem Quoted.escape_of_unescape? {c d : Char} (h : Quoted.unescape? c = some d) :
    Quoted.escape d = ['\\', c] ∧ c ≠ '\t' := by
  unfold Quoted.unescape? at h
  split at h <;> cases h <;> decide

/-- A literal ends with a mark. -/
theorem Quoted.drop_insideLength {cs : List Char} {n : Nat} (h : Quoted.insideLength cs = some n) :
    cs.drop n = '\x22' :: cs.drop (n + 1) := by
  fun_induction Quoted.insideLength cs generalizing n with
  | case1 => cases h
  | case2 rest => cases h; rfl
  | case3 => cases h
  | case4 => cases h
  | case5 c rest hne ih =>
    obtain ⟨m, hm, rfl⟩ := Option.map_eq_some_iff.1 h
    exact ih hm
  | case6 c rest hquote hfeed hescaped hescape ih =>
    obtain ⟨m, hm, rfl⟩ := Option.map_eq_some_iff.1 h
    exact ih hm

/-- What a literal stands for is encoded as the inside of the literal, unless that holds a tab. -/
theorem Quoted.encode_eq_iff {cs value : List Char} {n : Nat} (h : Quoted.insideLength cs = some n)
    (hvalue : Quoted.decode (cs.take n) = some value) : Quoted.encode value = cs.take n ↔ '\t' ∉ cs.take n := by
  fun_induction Quoted.insideLength cs generalizing n value with
  | case1 => cases h
  | case2 rest =>
    cases h
    cases hvalue
    simp [Quoted.encode]
  | case3 => cases h
  | case4 => cases h
  | case5 c rest hne ih =>
    obtain ⟨m, hm, rfl⟩ := Option.map_eq_some_iff.1 h
    simp only [List.take_succ_cons, Quoted.decode, bind, Option.bind_eq_some_iff, pure, Option.some.injEq] at hvalue
    obtain ⟨d, hd, ds, hds, rfl⟩ := hvalue
    obtain ⟨hescape, hc⟩ := Quoted.escape_of_unescape? hd
    rw [List.take_succ_cons, List.take_succ_cons, encode_cons, hescape]
    simp [ih hm hds, hc.symm]
  | case6 c rest hquote hfeed _ hescape ih =>
    obtain ⟨m, hm, rfl⟩ := Option.map_eq_some_iff.1 h
    have hslash : c ≠ '\\' := by
      rintro rfl
      cases rest with
      | nil => cases hm
      | cons d rest => exact hescape d rest rfl rfl
    rw [List.take_succ_cons, Quoted.decode, if_neg hslash] at hvalue
    · obtain ⟨ds, hds, rfl⟩ := Option.map_eq_some_iff.1 hvalue
      have hrest := ih hm hds
      rw [List.take_succ_cons, encode_cons]
      by_cases htab : c = '\t'
      · simp [htab, Quoted.escape]
      · have hescape : Quoted.escape c = [c] := by
          rw [Quoted.escape, if_neg hfeed, if_neg htab, if_neg hslash, if_neg hquote]
        rw [hescape]
        simp [hrest, Ne.symm htab]
    · exact fun _ _ h => absurd h hslash

namespace Scan

end Scan

/-- A string literal is what stands between two marks and decodes to its value. -/
theorem Scan.Shape.of_string {x : Stretch} {rest : List Char} {value : String} (h : Shape rest x)
    (hx : x.token = some (.string value)) : ∃ inside, x.text = '\x22' :: (inside ++ ['\x22']) ∧
      Quoted.insideLength (inside ++ ['\x22']) = some inside.length ∧ Quoted.decode inside = some value.toList := by
  cases h with
  | blank | comment | number | symbol => cases hx
  | word c w starts continues ends =>
    have hx : wordToken (c :: w) = .string value := Option.some.inj hx
    unfold wordToken at hx
    split at hx <;> cases hx
  | string w n value closed whole decodes =>
    cases hx
    have hw : w.take n ++ ['\x22'] = w := by
      have hmark := Quoted.drop_insideLength closed
      rw [← whole, List.drop_length] at hmark
      rw [← hmark, List.take_append_drop]
    have hlength : (w.take n).length = n := by
      rw [List.length_take]
      omega
    exact ⟨w.take n, by rw [hw], by rw [hw, hlength, closed], by rw [decodes, String.toList_ofList]⟩

/-- A string is spelled as it was written, unless it was written with a tab. -/
theorem literal_eq_text_iff {source : String} {ls : List Lexeme} (h : tokenize source = .ok ls) {l : Lexeme} (hl : l ∈ ls)
    {value : String} (hvalue : l.token = .string value) : Quoted.literal value = l.text ↔ '\t' ∉ l.text.toList := by
  obtain ⟨text, rest, htext, hshape⟩ := exists_shape h hl
  obtain ⟨inside, rfl, hclosed, hdecodes⟩ := hshape.of_string (congrArg some hvalue)
  have hliteral : Quoted.literal value = l.text ↔ Quoted.encode value.toList = inside := by
    rw [htext, Quoted.literal, String.ofList_inj]
    simp
  have htab : '\t' ∉ l.text.toList ↔ '\t' ∉ inside := by
    rw [htext, String.toList_ofList]
    simp
  have hinside : (inside ++ ['\x22']).take inside.length = inside := List.take_left
  have hencode : Quoted.encode value.toList = inside ↔ '\t' ∉ inside := by
    have hencode := Quoted.encode_eq_iff hclosed (hinside.symm ▸ hdecodes)
    rwa [hinside] at hencode
  rw [hliteral, htab, hencode]

/-! ## Spelled tokens -/

namespace Scan

/-- The stretches of tokens in their spellings, with a space between any two. -/
def spaced : List Token → List Stretch
  | [] => []
  | [t] => [⟨some t, t.spelling.toList⟩]
  | t :: u :: ts => ⟨some t, t.spelling.toList⟩ :: ⟨none, [' ']⟩ :: spaced (u :: ts)

theorem textOf_spaced (ts : List Token) : textOf (spaced ts) = (" ".intercalate (ts.map Token.spelling)).toList := by
  fun_induction spaced ts with
  | case1 => simp
  | case2 t => simp
  | case3 t u ts ih =>
    have hjoin : " ".intercalate ((t :: u :: ts).map Token.spelling) =
        t.spelling ++ " " ++ " ".intercalate ((u :: ts).map Token.spelling) := String.intercalate_cons_cons
    rw [textOf_cons, textOf_cons, ih, hjoin]
    simp

theorem cut_spaced {ts : List Token} (h : ∀ t ∈ ts, t.Spellable) : Cut (spaced ts) [] := by
  fun_induction spaced ts with
  | case1 => trivial
  | case2 t => exact ⟨(shape_spelling (h t List.mem_cons_self) (by simp [Apart])).stands, trivial⟩
  | case3 t u ts ih =>
    obtain ⟨ht, hts⟩ := List.forall_mem_cons.1 h
    refine ⟨(shape_spelling ht ?_).stands, (Shape.blank ' ' (by decide)).stands, ih hts⟩
    rintro c ⟨⟩
    decide

/-- What is read from stretches are their tokens, each from its text. -/
theorem readings_placed (p : Position) (xs : List Stretch) : (placed p xs).map (fun l => (l.token, l.text)) =
    xs.filterMap fun x => x.token.map fun t => (t, String.ofList x.text) := by
  induction xs generalizing p with
  | nil => rfl
  | cons x xs ih => rcases x with ⟨_ | t, text⟩ <;> simp [placed, ih]

theorem readings_spaced (p : Position) (ts : List Token) :
    (placed p (spaced ts)).map (fun l => (l.token, l.text)) = ts.map fun t => (t, t.spelling) := by
  rw [readings_placed]
  fun_induction spaced ts with
  | case1 => rfl
  | case2 t => simp
  | case3 t u ts ih => simp [ih]

end Scan

/-- Tokens in their spellings with a space between any two are read back, each from its spelling; and a
string that is read is spelled as it was written exactly if it was written without a tab. -/
theorem spelling_inverts_reading :
    (∀ ts : List Token, (∀ t ∈ ts, t.Spellable) → ∃ ls,
      tokenize (" ".intercalate (ts.map Token.spelling)) = .ok ls ∧
        ls.map (·.token) = ts ∧ ls.map (·.text) = ts.map Token.spelling) ∧
    ∀ source ls, tokenize source = .ok ls → ∀ l ∈ ls, ∀ value, l.token = .string value →
      (Quoted.literal value = l.text ↔ '\t' ∉ l.text.toList) := by
  refine ⟨fun ts h => ?_, fun source ls h l hl value hvalue => literal_eq_text_iff h hl hvalue⟩
  have hreadings := readings_spaced .first ts
  refine ⟨placed .first (spaced ts), tokenize_ok_iff.2 ⟨_, cut_spaced h, textOf_spaced ts, rfl⟩, ?_, ?_⟩
  · simpa [Function.comp_def] using congrArg (List.map Prod.fst) hreadings
  · simpa [Function.comp_def] using congrArg (List.map Prod.snd) hreadings

/-- A name that starts with a keyword, symbols that would run into each other, the largest integer and a
string with every escape are read back; a string that was written with a tab is spelled otherwise. -/
theorem spelling_of_each_kind :
    let ts : List Token := [.name "entry_", .keyword .entry, .symbol .less, .symbol .equal, .integer 9223372036854775807,
      .string "a\"\\\n\té", .symbol .not]
    (∀ t ∈ ts, t.Spellable) ∧
    (∃ ls, tokenize "entry_ entry < == 9223372036854775807 \"a\\\"\\\\\\n\\té\" !" = .ok ls ∧ ls.map (·.token) = ts) ∧
    tokenize "\"a\tb\"" = .ok [⟨.string "a\tb", "\"a\tb\"", ⟨0, 5, 1, 1⟩⟩] ∧ Quoted.literal "a\tb" ≠ "\"a\tb\"" := by
  intro ts
  have hspellable : ∀ t ∈ ts, t.Spellable := by
    simp only [ts, List.forall_mem_cons]
    exact ⟨show IsName "entry_" by decide, trivial, trivial, trivial, show 0 ≤ Int64.toInt 9223372036854775807 by decide,
      trivial, trivial, nofun⟩
  have htab : tokenize "\"a\tb\"" = .ok [⟨.string "a\tb", "\"a\tb\"", ⟨0, 5, 1, 1⟩⟩] := by cbv
  obtain ⟨ls, hls, htokens, -⟩ := spelling_inverts_reading.1 ts hspellable
  refine ⟨hspellable, ⟨ls, ?_, htokens⟩, htab, fun heq => ?_⟩
  · have hspelling : " ".intercalate (ts.map Token.spelling) =
        "entry_ entry < == 9223372036854775807 \"a\\\"\\\\\\n\\té\" !" := by decide
    rw [← hspelling, hls]
  · exact (spelling_inverts_reading.2 _ _ htab _ List.mem_cons_self _ rfl).1 heq (by decide)

end Parley
