/-
The line and the column of a byte. Among the starts of the lines, bisection finds the last one that
is not behind the byte; as many come before it as there are line feeds before the byte, and from
there on the characters are counted. So the span of a range is the one found by counting, and the
line and the column tell the places of a text apart.
-/
import Parley.Text.LineIndex
import Parley.Proofs.Text.Splice
import Mathlib.Data.List.Induction
import Mathlib.Data.List.Basic

namespace Parley

/-! ## Bisection -/

/-- The numbers before `low` are less than `x`, and those from `high` on are greater. -/
structure Straddles (xs : Array Nat) (x low high : Nat) : Prop where
  below : ∀ i y, xs[i]? = some y → i < low → y < x
  above : ∀ i y, xs[i]? = some y → high ≤ i → x < y

section Seek

variable {xs : Array Nat} {x low high : Nat} {inside : high ≤ xs.size}

theorem getElem?_of_found {i : Nat} (h : seek xs x low high inside = .found i) : xs[i]? = some x := by
  fun_induction seek xs x low high inside with
  | case1 low high inside hopen middle heq =>
    obtain rfl := Sought.found.inj h
    rw [Array.getElem?_eq_getElem (by omega), heq]
  | case2 low high inside hopen middle hne hlt ih => exact ih h
  | case3 low high inside hopen middle hne hge ih => exact ih h
  | case4 => cases h

theorem lt_of_getElem? (hasc : xs.toList.Pairwise (· < ·)) {i j y z : Nat} (hi : xs[i]? = some y) (hj : xs[j]? = some z)
    (hlt : i < j) : y < z := by
  rw [← Array.getElem?_toList, List.getElem?_eq_some_iff] at hi hj
  obtain ⟨hi, rfl⟩ := hi
  obtain ⟨hj, rfl⟩ := hj
  exact List.pairwise_iff_getElem.1 hasc i j hi hj hlt

theorem straddles_of_missing {i : Nat} (hasc : xs.toList.Pairwise (· < ·)) (hin : Straddles xs x low high) (hle : low ≤ high)
    (h : seek xs x low high inside = .missing i) : i ≤ xs.size ∧ Straddles xs x i i := by
  fun_induction seek xs x low high inside with
  | case1 => cases h
  | case2 low high inside hopen middle hne hlt ih =>
    have hmiddle : xs[middle]? = some xs[middle] := Array.getElem?_eq_getElem (by omega)
    refine ih ⟨fun j y hy hj => ?_, hin.above⟩ (by omega) h
    rcases Nat.lt_succ_iff_lt_or_eq.1 hj with hj | rfl
    · exact Nat.lt_trans (lt_of_getElem? hasc hy hmiddle hj) hlt
    · exact Option.some.inj (hy.symm.trans hmiddle) ▸ hlt
  | case3 low high inside hopen middle hne hge ih =>
    have hmiddle : xs[middle]? = some xs[middle] := Array.getElem?_eq_getElem (by omega)
    have hgt : x < xs[middle] := by omega
    refine ih ⟨hin.below, fun j y hy hj => ?_⟩ (by omega) h
    rcases Nat.eq_or_lt_of_le hj with rfl | hj
    · exact Option.some.inj (hy.symm.trans hmiddle) ▸ hgt
    · exact Nat.lt_trans hgt (lt_of_getElem? hasc hmiddle hy hj)
  | case4 low high inside hclosed =>
    obtain rfl := Sought.missing.inj h
    obtain rfl : low = high := by omega
    exact ⟨inside, hin⟩

end Seek

namespace LineIndex

section Lines

variable {index : LineIndex} {before behind : List Nat} {start : Nat}
  (hstarts : index.starts.toList = before ++ start :: behind)

include hstarts

theorem getElem?_starts : index.starts[before.length]? = some start := by
  rw [← Array.getElem?_toList, hstarts, List.getElem?_append_right (Nat.le_refl _), Nat.sub_self, List.getElem?_cons_zero]

/-- The line of a byte is the last that starts no later. -/
theorem lineAt_eq {offset : Nat} (hstart : start ≤ offset) (hbehind : ∀ n ∈ behind, offset < n) :
    index.lineAt offset = before.length := by
  have hat := getElem?_starts hstarts
  have hlater : ∀ i y, index.starts[i]? = some y → before.length < i → offset < y := by
    intro i y hy hi
    rw [← Array.getElem?_toList, hstarts, List.getElem?_append_right (Nat.le_of_lt hi), List.getElem?_cons,
      if_neg (Nat.sub_ne_zero_of_lt hi)] at hy
    exact hbehind y (List.mem_of_getElem? hy)
  unfold lineAt
  cases hseek : seek index.starts offset 0 index.starts.size (Nat.le_refl _) with
  | found line =>
    have hline := getElem?_of_found hseek
    rcases Nat.lt_trichotomy line before.length with hlt | heq | hgt
    · have := lt_of_getElem? index.ascending hline hat hlt
      omega
    · exact heq
    · exact absurd (hlater _ _ hline hgt) (Nat.lt_irrefl _)
  | missing line =>
    have hout : Straddles index.starts offset 0 index.starts.size := by
      refine ⟨fun _ _ _ h => absurd h (Nat.not_lt_zero _), fun i y hy hi => ?_⟩
      rw [Array.getElem?_eq_none hi] at hy
      cases hy
    obtain ⟨hsize, hline⟩ := straddles_of_missing index.ascending hout (Nat.zero_le _) hseek
    -- the byte would be put right behind the start of its line
    have hgt : before.length < line := by
      by_contra hge
      have := hline.above _ _ hat (by omega)
      omega
    have hle : line ≤ before.length + 1 := by
      by_contra hlt
      have hnext : before.length + 1 < index.starts.size := by omega
      have hbelow := hline.below _ _ (Array.getElem?_eq_getElem hnext) (by omega)
      have habove := hlater _ _ (Array.getElem?_eq_getElem hnext) (by omega)
      omega
    show line - 1 = before.length
    omega

theorem startOf_line : index.starts.getD before.length 0 = start := by
  rw [Array.getD_eq_getD_getElem?, getElem?_starts hstarts, Option.getD_some]

end Lines

end LineIndex

/-! ## Bytes -/

/-- The bytes of a text. -/
def bytesOf (cs : List Char) : List UInt8 := cs.flatMap String.utf8EncodeChar

theorem bytes_toUTF8 (source : String) : source.toUTF8.data.toList = bytesOf source.toList := by
  rw [String.toUTF8, ← String.utf8Encode_toList, List.utf8Encode, List.data_toByteArray]
  rfl

theorem bytesOf_append (cs ds : List Char) : bytesOf (cs ++ ds) = bytesOf cs ++ bytesOf ds := List.flatMap_append

theorem length_bytesOf (cs : List Char) : (bytesOf cs).length = byteLength cs := by
  induction cs with
  | nil => rfl
  | cons c cs ih =>
    rw [bytesOf, List.flatMap_cons, List.length_append, String.length_utf8EncodeChar, byteLength_cons, ← ih, bytesOf]

theorem ofNat_eq_feed {n : Nat} (h : 10 = UInt8.ofNat n) : n % 256 = 10 := by
  simpa using (congrArg UInt8.toNat h).symm

/-- No byte of another character is that of a line feed. -/
theorem not_mem_encode {c : Char} (hc : c ≠ '\n') : 10 ∉ String.utf8EncodeChar c := by
  have hval : c.val.toNat ≠ 10 := fun heq => hc (Char.ext (UInt32.toNat_inj.1 heq))
  intro hmem
  unfold String.utf8EncodeChar at hmem
  dsimp only at hmem
  split at hmem
  · have := ofNat_eq_feed (List.mem_singleton.1 hmem)
    omega
  · -- every byte of a longer character is at least 128
    obtain ⟨n, hn, hmem⟩ : ∃ n, 128 ≤ n % 256 ∧ 10 = UInt8.ofNat n := by
      split at hmem
      · simp only [List.mem_cons, List.not_mem_nil, or_false] at hmem
        rcases hmem with h | h <;> exact ⟨_, by omega, h⟩
      split at hmem
      · simp only [List.mem_cons, List.not_mem_nil, or_false] at hmem
        rcases hmem with h | h | h <;> exact ⟨_, by omega, h⟩
      · simp only [List.mem_cons, List.not_mem_nil, or_false] at hmem
        rcases hmem with h | h | h | h <;> exact ⟨_, by omega, h⟩
    have := ofNat_eq_feed hmem
    omega

theorem count_bytesOf (cs : List Char) : (bytesOf cs).count 10 = cs.count '\n' := by
  induction cs with
  | nil => rfl
  | cons c cs ih =>
    rw [bytesOf, List.flatMap_cons, List.count_append, ← bytesOf, ih, List.count_cons, Nat.add_comm]
    by_cases hfeed : c = '\n'
    · subst hfeed
      rfl
    · rw [List.count_eq_zero_of_not_mem (not_mem_encode hfeed), if_neg (by simpa using hfeed)]

/-! ## Last lines -/

def lastLine (cs : List Char) : List Char := (cs.reverse.takeWhile (· ≠ '\n')).reverse

theorem reverse_takeWhile_isSuffix {α : Type} (p : α → Bool) (xs : List α) : (xs.reverse.takeWhile p).reverse <:+ xs := by
  have h := List.takeWhile_prefix (l := xs.reverse) p
  rwa [← List.reverse_suffix, List.reverse_reverse] at h

theorem lastLine_concat (w : List Char) (c : Char) :
    lastLine (w ++ [c]) = if c = '\n' then [] else lastLine w ++ [c] := by
  unfold lastLine
  rw [List.reverse_append, List.reverse_singleton, List.singleton_append, List.takeWhile_cons]
  by_cases hfeed : c = '\n'
  · simp [hfeed]
  · simp [hfeed]

theorem lastLine_isSuffix (w : List Char) : lastLine w <:+ w := reverse_takeWhile_isSuffix _ w

/-- The bytes behind the last line feed. -/
def lastBytes (bytes : List UInt8) : List UInt8 := (bytes.reverse.takeWhile (· ≠ 10)).reverse

theorem lastBytes_append {xs ys : List UInt8} (h : 10 ∉ ys) : lastBytes (xs ++ ys) = lastBytes xs ++ ys := by
  have hall : ∀ b ∈ ys.reverse, decide (b ≠ 10) = true := by
    intro b hb
    rw [decide_eq_true_eq]
    rintro rfl
    exact h (List.mem_reverse.1 hb)
  unfold lastBytes
  rw [List.reverse_append, List.takeWhile_append_of_pos hall, List.reverse_append, List.reverse_reverse]

theorem lastBytes_feed (xs : List UInt8) : lastBytes (xs ++ [10]) = [] := by
  simp [lastBytes]

theorem lastBytes_bytesOf (cs : List Char) : lastBytes (bytesOf cs) = bytesOf (lastLine cs) := by
  induction cs using List.reverseRecOn with
  | nil => rfl
  | append_singleton cs c ih =>
    rw [bytesOf_append, lastLine_concat]
    by_cases hfeed : c = '\n'
    · subst hfeed
      exact lastBytes_feed _
    · have hc : 10 ∉ bytesOf [c] := by simpa [bytesOf] using not_mem_encode hfeed
      rw [lastBytes_append hc, ih, if_neg hfeed, bytesOf_append]

/-- The last line starts in front of the bytes behind the last line feed, and there is a line before it for each line feed. -/
theorem starts_eq_concat (bytes : List UInt8) :
    ∃ before, 0 :: startsFrom 0 bytes = before ++ [bytes.length - (lastBytes bytes).length] ∧
      before.length = bytes.count 10 := by
  induction bytes using List.reverseRecOn with
  | nil => exact ⟨[], rfl, rfl⟩
  | append_singleton bytes b ih =>
    obtain ⟨before, hbefore, hlength⟩ := ih
    rw [startsFrom_append, ← List.cons_append, hbefore, Nat.zero_add, List.count_append, List.length_append]
    by_cases hfeed : b = 10
    · subst hfeed
      refine ⟨before ++ [bytes.length - (lastBytes bytes).length], ?_, ?_⟩
      · rw [lastBytes_feed]
        rfl
      · rw [List.length_append, hlength]
        rfl
    · have hb : 10 ∉ [b] := by simpa [eq_comm] using hfeed
      refine ⟨before, ?_, ?_⟩
      · have hnone : startsFrom bytes.length [b] = [] := by simp [startsFrom, hfeed]
        rw [lastBytes_append hb, List.length_append, hnone, List.append_nil, Nat.add_sub_add_right]
      · rw [List.count_eq_zero_of_not_mem hb, hlength, Nat.add_zero]

/-! ## Spans by counting -/

namespace LineIndex

/-- The line of a byte and its start. -/
theorem lineAt_of {source : String} {offset : Nat} (hle : offset ≤ byteLength source.toList) :
    (of source).lineAt offset = ((bytesOf source.toList).take offset).count 10 ∧
    (of source).starts.getD ((of source).lineAt offset) 0 =
      offset - (lastBytes ((bytesOf source.toList).take offset)).length := by
  have hlength : ((bytesOf source.toList).take offset).length = offset := by
    rw [List.length_take, length_bytesOf, Nat.min_eq_left hle]
  obtain ⟨before, hbefore, hcount⟩ := starts_eq_concat ((bytesOf source.toList).take offset)
  rw [hlength] at hbefore
  have hstarts : (of source).starts.toList =
      before ++ (offset - (lastBytes ((bytesOf source.toList).take offset)).length) ::
        startsFrom offset ((bytesOf source.toList).drop offset) := by
    show 0 :: startsFrom 0 source.toUTF8.data.toList = _
    rw [bytes_toUTF8, ← List.take_append_drop offset (bytesOf source.toList), startsFrom_append, ← List.cons_append,
      List.take_append_drop, hbefore, hlength, Nat.zero_add, List.append_assoc]
    rfl
  have hline := lineAt_eq hstarts (Nat.sub_le _ _) fun n hn => (mem_startsFrom hn).1
  exact ⟨hline.trans hcount, by rw [hline, startOf_line hstarts]⟩

/-- From the start of a line there are only the characters of that line. -/
theorem slice?_lastLine (source : String) {before after : List Char} (h : source.toList = before ++ after) :
    (of source).slice? (byteLength before - byteLength (lastLine before)) (byteLength before) = some (lastLine before) := by
  obtain ⟨front, hfront⟩ := lastLine_isSuffix before
  have hstart : byteLength before - byteLength (lastLine before) = byteLength front := by
    have := byteLength_append front (lastLine before)
    rw [hfront] at this
    omega
  have hcs : (of source).source.toList = front ++ (lastLine before ++ after) := by
    rw [← List.append_assoc, hfront]
    exact h
  have hstop : byteLength before = byteLength front + byteLength (lastLine before) := by rw [← byteLength_append, hfront]
  have hends : isBoundary (front ++ (lastLine before ++ after)) (byteLength before) = true := by
    rw [← List.append_assoc, hfront]
    exact isBoundary_prefix _ _
  unfold slice?
  rw [hstart, hcs, if_pos, dropBytes_prefix, hstop, Nat.add_sub_cancel_left, takeBytes_prefix]
  rw [hends, isBoundary_prefix, hstop]
  simp

end LineIndex

namespace Span

section Counting

variable {source : String} {start s : Nat} (hs : s = min start (byteLength source.toList)) (stop : Nat)

include hs

theorem line_ofRange : (ofRange source start stop).line = ((bytesOf source.toList).take s).count 10 + 1 := by
  subst hs
  exact congrArg (· + 1) (LineIndex.lineAt_of (Nat.min_le_right _ _)).1

/-- The column is counted from the last line feed, unless there is nothing to count the characters of. -/
theorem column_ofRange : (ofRange source start stop).column =
    ((LineIndex.of source).slice? (s - (lastBytes ((bytesOf source.toList).take s)).length) s).elim
      (lastBytes ((bytesOf source.toList).take s)).length List.length + 1 := by
  have htail : (lastBytes ((bytesOf source.toList).take s)).length ≤ s :=
    Nat.le_trans (reverse_takeWhile_isSuffix _ _).length_le (List.length_take_le s (bytesOf source.toList))
  have hle : s ≤ byteLength source.toList := hs ▸ Nat.min_le_right _ _
  have hstart := (LineIndex.lineAt_of hle).2
  subst hs
  dsimp only [ofRange, LineIndex.span]
  rw [show (LineIndex.of source).source = source from rfl, hstart, Nat.sub_sub_self htail]

/-- Inside a character the bytes are counted. -/
theorem column_inside (h : ¬CutAt source.toList s) :
    (ofRange source start stop).column = (lastBytes ((bytesOf source.toList).take s)).length + 1 := by
  have hinside : isBoundary (LineIndex.of source).source.toList s = false := by rwa [← isBoundary_iff, Bool.not_eq_true] at h
  rw [column_ofRange hs, LineIndex.slice?]
  simp [hinside]

end Counting

section Prefix

variable {source : String} {start : Nat} {before after : List Char} (h : source.toList = before ++ after)

include h

/-- Between characters the characters are counted. -/
theorem column_between (hs : byteLength before = min start (byteLength source.toList)) (stop : Nat) :
    (ofRange source start stop).column = (lastLine before).length + 1 := by
  have hbytes : (bytesOf source.toList).take (byteLength before) = bytesOf before := by
    rw [h, bytesOf_append, ← length_bytesOf, List.take_left]
  rw [column_ofRange hs, hbytes, lastBytes_bytesOf, length_bytesOf, LineIndex.slice?_lastLine source h]
  rfl

/-- The span of a range that starts between characters. -/
theorem ofRange_prefix (stop : Nat) :
    ofRange source (byteLength before) stop =
      ⟨byteLength before, min (max stop (byteLength before)) (byteLength source.toList) - byteLength before,
        before.count '\n' + 1, (lastLine before).length + 1⟩ := by
  have hs : byteLength before = min (byteLength before) (byteLength source.toList) := by
    rw [h, byteLength_append]
    exact (Nat.min_eq_left (Nat.le_add_right _ _)).symm
  have hline := line_ofRange hs stop
  rw [h, bytesOf_append, ← length_bytesOf, List.take_left, count_bytesOf, length_bytesOf] at hline
  have hcolumn := column_between h hs stop
  show Span.mk (min _ (byteLength source.toList))
    (min (max stop (min _ (byteLength source.toList))) (byteLength source.toList) - min _ (byteLength source.toList))
    (ofRange source (byteLength before) stop).line (ofRange source (byteLength before) stop).column = _
  rw [← hs, hline, hcolumn]

end Prefix

end Span

/-! ## Places in reading order -/

/-- A span that starts on an earlier line, or earlier on the same line. -/
def Span.Precedes (s t : Span) : Prop := s.line < t.line ∨ s.line = t.line ∧ s.column < t.column

/-- The place behind a text has the number of its bytes, of its line feeds and of the characters of
its last line. -/
theorem Position.after_first (w : List Char) :
    Position.first.after w = ⟨byteLength w, w.count '\n' + 1, (lastLine w).length + 1⟩ := by
  induction w using List.reverseRecOn with
  | nil => rfl
  | append_singleton w c ih =>
    rw [after_append, ih, after_cons, after_nil, advance, lastLine_concat, byteLength_append, List.count_append]
    by_cases hfeed : c = '\n'
    · simp [hfeed]
    · simp [hfeed]

/-- Going on leads to a later line or further on the same line. -/
theorem Position.lt_after (p : Position) {cs : List Char} (hcs : cs ≠ []) :
    p.line < (p.after cs).line ∨ p.line = (p.after cs).line ∧ p.column < (p.after cs).column := by
  induction cs using List.reverseRecOn with
  | nil => exact absurd rfl hcs
  | append_singleton cs c ih =>
    have hle : p.line < (p.after cs).line ∨ p.line = (p.after cs).line ∧ p.column ≤ (p.after cs).column := by
      rcases eq_or_ne cs [] with rfl | hcs
      · exact .inr ⟨rfl, Nat.le_refl _⟩
      · exact (ih hcs).imp_right (.imp_right Nat.le_of_lt)
    rw [after_append, after_cons, after_nil, advance]
    split
    · left
      dsimp only
      omega
    · dsimp only
      omega

theorem Span.ofRange_precedes {source : String} {m n : Nat} (hm : CutAt source.toList m) (hn : CutAt source.toList n) (h : m < n)
    (stop stop' : Nat) : (Span.ofRange source m stop).Precedes (Span.ofRange source n stop') := by
  obtain ⟨before, after, hsource, rfl⟩ := hm
  obtain ⟨gap, rest, rfl, rfl⟩ := CutAt.behind (hsource ▸ hn) (Nat.le_of_lt h)
  have hgap : gap ≠ [] := by
    rintro rfl
    exact absurd h (Nat.lt_irrefl _)
  have hlonger : source.toList = (before ++ gap) ++ rest := by rw [hsource, List.append_assoc]
  have hplace := (Position.first.after before).lt_after hgap
  rw [← Position.after_append, Position.after_first, Position.after_first] at hplace
  rw [← byteLength_append, ofRange_prefix hsource, ofRange_prefix hlonger]
  exact hplace

theorem colon_notMem_toDigits (n : Nat) : ':' ∉ Nat.toDigits 10 n := by
  intro h
  have := Nat.isDigit_of_mem_toDigits (by decide) (by decide) h
  cases this

/-- The line and the column can be read off the text for a place. -/
theorem Span.eq_of_place {s t : Span} (h : s.place = t.place) : s.line = t.line ∧ s.column = t.column := by
  have hchars : Nat.toDigits 10 s.line ++ ':' :: Nat.toDigits 10 s.column =
      Nat.toDigits 10 t.line ++ ':' :: Nat.toDigits 10 t.column := by
    have := congrArg String.toList h
    simpa [place, Nat.toString_eq_repr, Nat.toList_repr] using this
  have hdigits : ∀ {m n : Nat}, Nat.toDigits 10 m = Nat.toDigits 10 n → m = n := by
    intro m n h
    rw [← Nat.ofDigitChars_ten_toDigits (n := m), h, Nat.ofDigitChars_ten_toDigits]
  obtain ⟨hline, -, hcolumn⟩ := (List.append_cons_inj_of_notMem (colon_notMem_toDigits _) (colon_notMem_toDigits _)).1 hchars
  exact ⟨hdigits hline, hdigits hcolumn⟩

theorem Span.Precedes.place_ne {s t : Span} (h : s.Precedes t) : s.place ≠ t.place := by
  intro heq
  obtain ⟨hline, hcolumn⟩ := eq_of_place heq
  unfold Precedes at h
  omega

/-- The span of a range is the one found by counting: line feeds for the line, and for the column
the characters behind the last of them, or the bytes where the range starts inside a character. In
reading order the places between characters stand as their bytes do, and no two of them are written
alike. -/
theorem LineIndex.span_counts (source : String) :
    (∀ start stop,
      let bytes := source.toUTF8.data.toList
      let s := min start bytes.length
      let span := (LineIndex.of source).span start stop
      span.offset = s ∧ span.length = min (max stop s) bytes.length - s ∧ span.line = 1 + (bytes.take s).count 10 ∧
      (∀ before after, source.toList = before ++ after → byteLength before = s → span.column = 1 + (lastLine before).length) ∧
      (¬CutAt source.toList s → span.column = 1 + (lastBytes (bytes.take s)).length)) ∧
    ∀ m n stop stop', CutAt source.toList m → CutAt source.toList n →
      let span := (LineIndex.of source).span
      (m < n → (span m stop).Precedes (span n stop')) ∧ (m ≠ n → (span m stop).place ≠ (span n stop').place) := by
  dsimp only
  rw [bytes_toUTF8, length_bytesOf]
  refine ⟨fun start stop => ⟨rfl, rfl, ?_, fun before after hsource hbefore => ?_, fun hcut => ?_⟩,
    fun m n stop stop' hm hn => ⟨fun h => ?_, fun h => ?_⟩⟩
  · rw [Nat.add_comm]
    exact Span.line_ofRange rfl stop
  · rw [Nat.add_comm]
    exact Span.column_between hsource hbefore stop
  · rw [Nat.add_comm]
    exact Span.column_inside rfl stop hcut
  · exact Span.ofRange_precedes hm hn h stop stop'
  · rcases Nat.lt_or_gt_of_ne h with hlt | hlt
    · exact (Span.ofRange_precedes hm hn hlt stop stop').place_ne
    · exact (Span.ofRange_precedes hn hm hlt stop' stop).place_ne.symm

/-- Two lines, where a range may start inside a character or end behind the text. -/
theorem LineIndex.span_counts_lines :
    CutAt "# é\nx".toList 4 ∧ CutAt "# é\nx".toList 5 ∧ ¬CutAt "# é\nx".toList 3 ∧
    ((LineIndex.of "# é\nx").span 5 9).length = 1 ∧ ((LineIndex.of "# é\nx").span 5 9).column = 1 ∧
    ((LineIndex.of "# é\nx").span 3 2).line = 1 ∧ ((LineIndex.of "# é\nx").span 3 2).column = 4 ∧
    ((LineIndex.of "# é\nx").span 4 4).Precedes ((LineIndex.of "# é\nx").span 5 5) ∧
    ((LineIndex.of "# é\nx").span 5 5).place ≠ ((LineIndex.of "# é\nx").span 4 4).place := by
  have hfour : CutAt "# é\nx".toList 4 := ⟨"# é".toList, "\nx".toList, rfl, rfl⟩
  have hfive : CutAt "# é\nx".toList 5 := ⟨"# é\n".toList, "x".toList, rfl, rfl⟩
  have hthree : ¬CutAt "# é\nx".toList 3 := by
    rw [← isBoundary_iff]
    decide
  obtain ⟨hspans, hplaces⟩ := LineIndex.span_counts "# é\nx"
  obtain ⟨-, hlength, -, hbetween, -⟩ := hspans 5 9
  obtain ⟨-, -, hline, -, hinside⟩ := hspans 3 2
  refine ⟨hfour, hfive, hthree, hlength.trans (by decide), ?_, hline.trans (by decide), (hinside hthree).trans (by decide),
    (hplaces 4 5 4 5 hfour hfive).1 (by decide), (hplaces 5 4 5 4 hfive hfour).2 (by decide)⟩
  exact (hbetween "# é\n".toList "x".toList rfl (by decide)).trans (by decide)

end Parley
