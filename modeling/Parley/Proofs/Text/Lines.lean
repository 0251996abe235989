/-
Lines and trimming. A text is cut at its line feeds, so texts written line by line are read as the lines
of each of them, and a text without line feeds is one line. What is trimmed of a line takes the return at
its end along.
-/
import Parley.Text.Lines
import Mathlib

namespace Parley.Lines

/-! ## Cutting at line feeds -/

theorem splitAtFeeds_eq (cs : List Char) : splitAtFeeds cs = cs.splitOn '\n' := by
  induction cs with
  | nil => rfl
  | cons c cs ih =>
    rw [splitAtFeeds, List.splitOn_cons_eq_if_modifyHead, ih]
    obtain ⟨line, lines, hcut⟩ := List.exists_cons_of_ne_nil (List.splitOn_ne_nil '\n' cs)
    simp [hcut]

theorem splitAtFeeds_ne_nil (cs : List Char) : splitAtFeeds cs ≠ [] := by
  rw [splitAtFeeds_eq]
  exact List.splitOn_ne_nil _ _

theorem intercalate_splitAtFeeds (cs : List Char) : ['\n'].intercalate (splitAtFeeds cs) = cs := by
  rw [splitAtFeeds_eq, List.intercalate_splitOn]

theorem splitAtFeeds_append_feed (front back : List Char) :
    splitAtFeeds (front ++ '\n' :: back) = splitAtFeeds front ++ splitAtFeeds back := by
  simp only [splitAtFeeds_eq, List.splitOn_append_cons_self]

theorem splitAtFeeds_of_not_mem {cs : List Char} (h : '\n' ∉ cs) : splitAtFeeds cs = [cs] := by
  rw [splitAtFeeds_eq, List.splitOn_eq_singleton h]

theorem length_splitAtFeeds (cs : List Char) : (splitAtFeeds cs).length = cs.count '\n' + 1 := by
  induction cs with
  | nil => rfl
  | cons c cs ih =>
    rw [splitAtFeeds_eq] at ih ⊢
    by_cases hc : c = '\n' <;> simp [List.splitOn_cons_eq_if_modifyHead, hc, ih]

theorem mem_of_mem_splitAtFeeds {c : Char} {cs : List Char} :
    ∀ line ∈ splitAtFeeds cs, c ∈ line → c ∈ cs := by
  induction cs with
  | nil => simp [splitAtFeeds]
  | cons d cs ih =>
    intro line hline hc
    obtain ⟨first, rest, hcut⟩ := List.exists_cons_of_ne_nil (splitAtFeeds_ne_nil cs)
    rw [hcut] at ih
    rw [splitAtFeeds, hcut] at hline
    split at hline
    · rcases List.mem_cons.1 hline with rfl | hline
      · cases hc
      · exact List.mem_cons_of_mem _ (ih line hline hc)
    · rcases List.mem_cons.1 hline with rfl | hline
      · rcases List.mem_cons.1 hc with rfl | hc
        · exact List.mem_cons_self
        · exact List.mem_cons_of_mem _ (ih first List.mem_cons_self hc)
      · exact List.mem_cons_of_mem _ (ih line (List.mem_cons_of_mem _ hline) hc)

/-! ## Lines of a text -/

theorem dropReturn_of_not_mem {line : List Char} (h : '\r' ∉ line) : dropReturn line = line := by
  rw [dropReturn, if_neg]
  intro hlast
  exact h (List.mem_of_getLast? hlast)

theorem ofStretches_append (front : List (List Char)) {back : List (List Char)} (h : back ≠ []) :
    ofStretches (front ++ back) = front.map dropReturn ++ ofStretches back := by
  induction front with
  | nil => rfl
  | cons line front ih =>
    have hne : front ++ back ≠ [] := List.append_ne_nil_of_right_ne_nil front h
    obtain ⟨next, rest, hrest⟩ := List.exists_cons_of_ne_nil hne
    rw [List.cons_append, hrest, ofStretches, ← hrest, ih]
    · rfl
    · simp

/-- What is before a line feed and what is behind it have lines of their own. -/
theorem ofText_append_feed (front back : List Char) :
    ofText (front ++ '\n' :: back) = (splitAtFeeds front).map dropReturn ++ ofText back := by
  rw [ofText, splitAtFeeds_append_feed, ofStretches_append _ (splitAtFeeds_ne_nil back), ofText]

/-- The lines that a text has in a longer one, where a line feed is behind it. -/
def ofPart (part : String) : List (List Char) := (splitAtFeeds part.toList).map dropReturn

theorem toList_unlines_cons (part : String) (parts : List String) :
    (unlines (part :: parts)).toList = part.toList ++ '\n' :: (unlines parts).toList := by
  simp [unlines]

theorem unlines_append (parts parts' : List String) : unlines (parts ++ parts') = unlines parts ++ unlines parts' := by
  rw [unlines, List.map_append, String.join_append, unlines, unlines]

/-- A text written with a line feed behind each of its parts has the lines of the parts. -/
theorem ofText_unlines_append (parts : List String) (back : List Char) :
    ofText ((unlines parts).toList ++ back) =
      parts.flatMap ofPart ++ ofText back := by
  induction parts with
  | nil => simp [unlines]
  | cons part parts ih =>
    rw [toList_unlines_cons, List.append_assoc, List.cons_append, ofText_append_feed, ih, List.flatMap_cons, List.append_assoc,
      ofPart]

theorem ofText_unlines (parts : List String) : ofText (unlines parts).toList = parts.flatMap ofPart := by
  have h := ofText_unlines_append parts []
  rwa [List.append_nil, show ofText [] = [] from rfl, List.append_nil] at h

/-- Each part and the line feed behind it fill as many lines as they have line feeds. -/
theorem length_flatMap_ofPart (parts : List String) :
    (parts.flatMap ofPart).length = (unlines parts).toList.count '\n' := by
  induction parts with
  | nil => simp [unlines]
  | cons part parts ih =>
    rw [List.flatMap_cons, List.length_append, ih, toList_unlines_cons, ofPart, List.length_map, length_splitAtFeeds,
      List.count_append, List.count_cons_self]
    omega

theorem ofPart_of_single {part : String} (h : '\n' ∉ part.toList) : ofPart part = [dropReturn part.toList] := by
  rw [ofPart, splitAtFeeds_of_not_mem h, List.map_singleton]

theorem ofPart_of_not_mem {part : String} (h : '\r' ∉ part.toList) : ofPart part = splitAtFeeds part.toList := by
  have hkept : ∀ line ∈ splitAtFeeds part.toList, dropReturn line = id line := fun line hline =>
    dropReturn_of_not_mem fun hreturn => h (mem_of_mem_splitAtFeeds line hline hreturn)
  rw [ofPart, List.map_congr_left hkept, List.map_id]

/-! ## Trimming -/

theorem trim_eq (cs : List Char) : trim cs = (cs.dropWhile CharClass.isBlank).rdropWhile CharClass.isBlank := rfl

theorem trim_cons_of_blank {c : Char} (h : CharClass.isBlank c) (cs : List Char) : trim (c :: cs) = trim cs := by
  rw [trim, trim, List.dropWhile_cons_of_pos h]

theorem trim_append_of_blank {c : Char} (h : CharClass.isBlank c) (cs : List Char) : trim (cs ++ [c]) = trim cs := by
  rw [trim_eq, trim_eq, List.dropWhile_append]
  split
  · next hempty =>
    rw [List.isEmpty_iff.1 hempty, List.dropWhile_cons_of_pos h]
    rfl
  · exact List.rdropWhile_concat_pos _ _ _ h

/-- A carriage return is white space. -/
theorem trim_dropReturn (line : List Char) : trim (dropReturn line) = trim line := by
  rw [dropReturn]
  split
  · next hlast =>
    obtain ⟨front, rfl⟩ := List.getLast?_eq_some_iff.1 hlast
    rw [List.dropLast_concat, trim_append_of_blank (by decide)]
  · rfl

theorem rdropWhile_of_trimmed {cs : List Char} (h : trim cs = cs) : cs.rdropWhile CharClass.isBlank = cs := by
  rw [← h, trim_eq]
  exact List.rdropWhile_idempotent _ _

theorem dropWhile_of_trimmed {cs : List Char} (h : trim cs = cs) : cs.dropWhile CharClass.isBlank = cs := by
  refine (List.dropWhile_suffix _).eq_of_length_le ?_
  calc cs.length = (trim cs).length := by rw [h]
    _ ≤ (cs.dropWhile CharClass.isBlank).length := (List.rdropWhile_prefix _ _).length_le

/-- An opening and a trimmed text with a space between them stay where they are when the line is trimmed. -/
theorem exists_trim_eq {opening text : List Char} (hopening : trim opening = opening) (hne : opening ≠ [])
    (htext : trim text = text) : ∃ rest, trim (opening ++ ' ' :: text) = opening ++ rest ∧ trim rest = text := by
  have htrim : trim (opening ++ ' ' :: text) = (opening ++ ' ' :: text).rdropWhile CharClass.isBlank := by
    rw [trim_eq, List.dropWhile_append, dropWhile_of_trimmed hopening, if_neg (by simpa using hne)]
  rcases List.eq_nil_or_concat' text with rfl | ⟨front, last, rfl⟩
  · refine ⟨[], ?_, rfl⟩
    rw [htrim, List.rdropWhile_concat_pos _ _ _ (by decide), rdropWhile_of_trimmed hopening, List.append_nil]
  · have hlast : ¬CharClass.isBlank last := by
      have := List.rdropWhile_eq_self_iff.1 (rdropWhile_of_trimmed htext) (by simp)
      simpa using this
    have hsplit : opening ++ ' ' :: (front ++ [last]) = (opening ++ ' ' :: front) ++ [last] := by simp
    refine ⟨' ' :: (front ++ [last]), ?_, ?_⟩
    · rw [htrim, hsplit, List.rdropWhile_concat_neg _ _ _ hlast]
    · rw [trim_cons_of_blank (by decide), htext]

end Parley.Lines
