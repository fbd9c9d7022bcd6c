/-
  CandidateSearch/Proofs/Source/Lines.lean
  ========================================
  **The line that a place in a text is on.**

  A place is given by the text in front of it, and that text gives its line and its column.
  In

      A = 1;⏎
      B = A * 2⏎

  the text in front of `*` has one line feed and six characters after it: line 2, column 7.
  `line_of_place` finds the second line of the text around it, with those six characters in
  front of the place.

  What a line is does not depend on how lines are listed (`IsLine`).  A line ends in front of
  a line feed, or of a carriage return with a line feed behind it, or with the text.  After a
  line feed at the end of the text there is one more line, which is empty.
-/
import Mathlib.Data.List.Basic
import CandidateSearch.Proofs.Token.Lossless

namespace CandidateSearch.Source

open Token (lineAfter columnAfter)

variable {text before rest : List Char}

/-! ### What a line is -/

/-- A line is over in front of these characters. -/
def LineOver (line after : List Char) : Prop :=
  after = [] ∨ (∃ more, after = '\n' :: more ∧ line.getLast? ≠ some '\r') ∨
    ∃ more, after = '\r' :: '\n' :: more

/-- The line of a text with a number, counted from one. -/
def IsLine (text : List Char) (number : Nat) (line : List Char) : Prop :=
  ∃ before after, text = before ++ line ++ after ∧ lineAfter before = number ∧
    columnAfter before = 1 ∧ '\n' ∉ line ∧ LineOver line after

/-- The line of a text with a number, as it is shown. -/
def lineAt (text : List Char) (number : Nat) : List Char := (lines text)[number - 1]?.getD []

/-! ### Lines one after the other -/

theorem segments_ne_nil (cs : List Char) : segments cs ≠ [] := by
  cases cs with
  | nil => exact List.cons_ne_nil _ _
  | cons c cs =>
    unfold segments
    split
    · exact List.cons_ne_nil _ _
    · split <;> exact List.cons_ne_nil _ _

theorem segments_of_notMem {line : List Char} (h : '\n' ∉ line) : segments line = [line] := by
  induction line with
  | nil => rfl
  | cons c line ih =>
    have hc : c ≠ '\n' := (List.ne_of_not_mem_cons h).symm
    rw [segments, if_neg hc, ih (List.not_mem_of_not_mem_cons h)]

theorem segments_append_feed {line : List Char} (h : '\n' ∉ line) (rest : List Char) :
    segments (line ++ '\n' :: rest) = line :: segments rest := by
  induction line with
  | nil => rfl
  | cons c line ih =>
    have hc : c ≠ '\n' := (List.ne_of_not_mem_cons h).symm
    rw [List.cons_append, segments, if_neg hc, ih (List.not_mem_of_not_mem_cons h)]

theorem lines_of_notMem {line : List Char} (h : '\n' ∉ line) :
    (lines line)[0]?.getD [] = line := by
  simp only [lines, segments_of_notMem h]
  cases line <;> rfl

/-- **A line feed ends a line**, and the other lines are those of what follows. -/
theorem lines_append_feed {line : List Char} (h : '\n' ∉ line) (rest : List Char) :
    lines (line ++ '\n' :: rest) = dropReturn line :: lines rest := by
  obtain ⟨segment, others, hrest⟩ := List.exists_cons_of_ne_nil (segments_ne_nil rest)
  simp only [lines, segments_append_feed h, hrest]
  rfl

/-! ### Whole lines in front of a place -/

/-- Lines with a line feed after each. -/
def fed (ls : List (List Char)) : List Char := ls.flatMap fun line => line ++ ['\n']

theorem fed_cons (line : List Char) (ls : List (List Char)) :
    fed (line :: ls) = line ++ '\n' :: fed ls := by simp [fed]

theorem count_fed {ls : List (List Char)} (h : ∀ line ∈ ls, '\n' ∉ line) :
    (fed ls).count '\n' = ls.length := by
  induction ls with
  | nil => rfl
  | cons line ls ih =>
    obtain ⟨hline, hothers⟩ := List.forall_mem_cons.mp h
    rw [fed_cons, List.count_append, List.count_eq_zero.mpr hline, List.count_cons_self,
      ih hothers, List.length_cons, Nat.zero_add]

theorem lines_fed_append {ls : List (List Char)} (h : ∀ line ∈ ls, '\n' ∉ line)
    (rest : List Char) : lines (fed ls ++ rest) = ls.map dropReturn ++ lines rest := by
  induction ls with
  | nil => rfl
  | cons line ls ih =>
    obtain ⟨hline, hothers⟩ := List.forall_mem_cons.mp h
    rw [fed_cons, List.append_assoc, List.cons_append, lines_append_feed hline, ih hothers]
    rfl

/-- A text is some whole lines and the beginning of one. -/
theorem exists_fed (before : List Char) :
    ∃ ls left, before = fed ls ++ left ∧ (∀ line ∈ ls, '\n' ∉ line) ∧ '\n' ∉ left := by
  induction before with
  | nil => exact ⟨[], [], rfl, by simp, by simp⟩
  | cons c before ih =>
    obtain ⟨ls, left, rfl, hls, hleft⟩ := ih
    by_cases hc : c = '\n'
    · refine ⟨[] :: ls, left, ?_, List.forall_mem_cons.mpr ⟨by simp, hls⟩, hleft⟩
      rw [hc, fed_cons]
      rfl
    · have hgrown : ∀ {line : List Char}, '\n' ∉ line → '\n' ∉ c :: line :=
        List.not_mem_cons_of_ne_of_not_mem (Ne.symm hc)
      cases ls with
      | nil => exact ⟨[], c :: left, rfl, hls, hgrown hleft⟩
      | cons line ls =>
        obtain ⟨hline, hothers⟩ := List.forall_mem_cons.mp hls
        refine ⟨(c :: line) :: ls, left, by simp [fed_cons], ?_, hleft⟩
        exact List.forall_mem_cons.mpr ⟨hgrown hline, hothers⟩

theorem columnAfter_fed (ls : List (List Char)) {left : List Char} (hleft : '\n' ∉ left) :
    columnAfter (fed ls ++ left) = left.length + 1 := by
  have hplain : ∀ c ∈ left.reverse, (c != '\n') = true := by
    intro c hc
    rw [bne_iff_ne]
    rintro rfl
    exact hleft (List.mem_reverse.mp hc)
  have hend : (fed ls).reverse.takeWhile (fun c => c != '\n') = [] := by
    rcases List.eq_nil_or_concat ls with rfl | ⟨others, line, rfl⟩
    · rfl
    · simp [fed]
  rw [columnAfter, List.reverse_append, List.takeWhile_append_of_pos hplain, hend,
    List.append_nil, List.length_reverse, Nat.add_comm]

theorem lineAfter_fed {ls : List (List Char)} (hls : ∀ line ∈ ls, '\n' ∉ line)
    {left : List Char} (hleft : '\n' ∉ left) : lineAfter (fed ls ++ left) = ls.length + 1 := by
  rw [lineAfter, List.count_append, count_fed hls, List.count_eq_zero.mpr hleft]
  omega

/-- In front of the last line there is another one, if the text has two. -/
theorem exists_line_above (h : 1 < lineAfter text) :
    ∃ before rest, text = before ++ rest ∧ lineAfter before = lineAfter text - 1 := by
  obtain ⟨ls, left, rfl, hls, hleft⟩ := exists_fed text
  rw [lineAfter_fed hls hleft] at h ⊢
  rcases List.eq_nil_or_concat' ls with rfl | ⟨others, line, rfl⟩
  · exact absurd h (by simp)
  · have hothers : lineAfter (fed others) = others.length + 1 := by
      have hwhole : ∀ line ∈ others, '\n' ∉ line :=
        fun line hline => hls line (List.mem_append_left _ hline)
      simpa using lineAfter_fed hwhole List.not_mem_nil
    refine ⟨fed others, fed [line] ++ left, ?_, ?_⟩
    · rw [fed, List.flatMap_append, List.append_assoc]
      rfl
    · rw [hothers, List.length_append]
      rfl

/-! ### The line around a place -/

/-- **The line that a place is on** has in front of the place as many characters as the column
    says; it goes on up to the next line feed, but without a carriage return in front of
    that. -/
theorem line_of_place (before rest : List Char) :
    ∃ head left right after, before = head ++ left ∧ rest = right ++ after ∧
      lineAfter head = lineAfter before ∧ columnAfter head = 1 ∧
      columnAfter before = left.length + 1 ∧ '\n' ∉ left ∧ '\n' ∉ right ∧
      (after = [] ∧ lineAt (before ++ rest) (lineAfter before) = left ++ right ∨
        ∃ more, after = '\n' :: more ∧
          lineAt (before ++ rest) (lineAfter before) = dropReturn (left ++ right)) := by
  obtain ⟨ls, left, rfl, hls, hleft⟩ := exists_fed before
  obtain ⟨right, after, rfl, -, hright, hafter⟩ := Token.run_spec (fun c => c != '\n') rest
  have hplain : '\n' ∉ right := by
    intro hmem
    simpa using hright '\n' hmem
  have hboth : '\n' ∉ left ++ right := by simp [hleft, hplain]
  have hfront : columnAfter (fed ls) = 1 := by
    simpa using columnAfter_fed ls List.not_mem_nil
  have hnumber : lineAfter (fed ls) = ls.length + 1 := by
    simpa using lineAfter_fed hls List.not_mem_nil
  have hline := lineAfter_fed hls hleft
  -- the whole lines in front are skipped by the number of the line
  have hskip : ∀ rest, lineAt (fed ls ++ rest) (ls.length + 1) = (lines rest)[0]?.getD [] := by
    intro rest
    rw [lineAt, lines_fed_append hls, Nat.add_sub_cancel,
      List.getElem?_append_right (by rw [List.length_map]), List.length_map, Nat.sub_self]
  have hjoin : fed ls ++ left ++ (right ++ after) = fed ls ++ (left ++ right ++ after) := by
    simp only [List.append_assoc]
  refine ⟨fed ls, left, right, after, rfl, rfl, hnumber.trans hline.symm, hfront,
    columnAfter_fed ls hleft, hleft, hplain, ?_⟩
  rw [hline, hjoin, hskip]
  cases after with
  | nil =>
    rw [List.append_nil]
    exact .inl ⟨rfl, lines_of_notMem hboth⟩
  | cons c more =>
    obtain rfl : c = '\n' := by simpa using hafter c more rfl
    refine .inr ⟨more, rfl, ?_⟩
    rw [lines_append_feed hboth]
    rfl

/-- Without its carriage return a line is over in front of the line feed or of both. -/
theorem lineOver_dropReturn (line more : List Char) : ∃ after,
    line ++ '\n' :: more = dropReturn line ++ after ∧ LineOver (dropReturn line) after := by
  by_cases hreturn : line.getLast? = some '\r'
  · obtain ⟨shorter, rfl⟩ := List.getLast?_eq_some_iff.mp hreturn
    refine ⟨'\r' :: '\n' :: more, ?_, .inr (.inr ⟨more, rfl⟩)⟩
    rw [dropReturn, if_pos hreturn, List.dropLast_concat]
    simp
  · rw [dropReturn, if_neg hreturn]
    exact ⟨'\n' :: more, rfl, .inr (.inl ⟨more, rfl, hreturn⟩)⟩

theorem mem_of_mem_dropReturn {line : List Char} {c : Char} (h : c ∈ dropReturn line) :
    c ∈ line := by
  unfold dropReturn at h
  split at h
  · exact List.dropLast_subset line h
  · exact h

/-- **What is shown for the line of a place is that line.** -/
theorem isLine_lineAt (h : text = before ++ rest) :
    IsLine text (lineAfter before) (lineAt text (lineAfter before)) := by
  obtain ⟨head, left, right, after, hbefore, hrest, hnumber, hcolumn, -, hleft, hright, hshown⟩ :=
    line_of_place before rest
  have hboth : '\n' ∉ left ++ right := by simp [hleft, hright]
  have htext : text = head ++ ((left ++ right) ++ after) := by
    rw [h, hbefore, hrest]
    simp only [List.append_assoc]
  rcases hshown with ⟨hafter, hline⟩ | ⟨more, hafter, hline⟩
  · rw [h, hline, ← h]
    exact ⟨head, after, by rw [htext, ← List.append_assoc], hnumber, hcolumn, hboth, .inl hafter⟩
  · obtain ⟨beyond, hsplit, hover⟩ := lineOver_dropReturn (left ++ right) more
    rw [h, hline, ← h]
    refine ⟨head, beyond, ?_, hnumber, hcolumn, fun hmem => hboth (mem_of_mem_dropReturn hmem),
      hover⟩
    rw [htext, hafter, hsplit, List.append_assoc]

/-- **A stretch without a line feed lies in the line that is shown**, at its column. -/
theorem lineAt_stretch {written after : List Char} (h : text = before ++ written ++ after)
    (hfeed : '\n' ∉ written) (hreturn : written.getLast? ≠ some '\r') (hsome : written ≠ []) :
    ∃ left right, lineAt text (lineAfter before) = left ++ written ++ right ∧
      columnAfter before = left.length + 1 := by
  obtain ⟨head, left, right, beyond, -, hrest, -, -, hcolumn, -, hright, hshown⟩ :=
    line_of_place before (written ++ after)
  -- the rest of the line is longer than the stretch, as there is no line feed in that
  obtain ⟨right, rfl⟩ : ∃ more, right = written ++ more := by
    rcases List.append_eq_append_iff.mp hrest with ⟨more, hmore, -⟩ | ⟨more, hmore, hbeyond⟩
    · exact ⟨more, hmore⟩
    · cases more with
      | nil => exact ⟨[], by rw [hmore]; simp⟩
      | cons c more =>
        rcases hshown with ⟨hnil, -⟩ | ⟨tail, hfed, -⟩
        · rw [hnil] at hbeyond
          cases hbeyond
        · rw [hfed] at hbeyond
          obtain ⟨rfl, -⟩ := List.cons.inj hbeyond
          exact absurd (by rw [hmore]; simp) hfeed
  rw [h, List.append_assoc]
  rcases hshown with ⟨-, hline⟩ | ⟨more, -, hline⟩
  · exact ⟨left, right, by rw [hline, List.append_assoc], hcolumn⟩
  · rw [hline, dropReturn]
    split
    · rename_i hlast
      -- the carriage return is behind the stretch
      rcases List.eq_nil_or_concat' right with rfl | ⟨shorter, c, rfl⟩
      · rw [List.append_nil, List.getLast?_append_of_ne_nil _ hsome] at hlast
        exact absurd hlast hreturn
      · refine ⟨left, shorter, ?_, hcolumn⟩
        simp only [← List.append_assoc, List.dropLast_concat]
    · exact ⟨left, right, by rw [List.append_assoc], hcolumn⟩

/-- **The line that the text ends on** is in front of its end as long as the column says. -/
theorem length_lineAt_end (text : List Char) :
    (lineAt text (lineAfter text)).length + 1 = columnAfter text := by
  obtain ⟨head, left, right, after, -, hrest, -, -, hcolumn, -, -, hshown⟩ := line_of_place text []
  obtain ⟨rfl, rfl⟩ := List.append_eq_nil_iff.mp hrest.symm
  rcases hshown with ⟨-, hline⟩ | ⟨more, hmore, -⟩
  · rw [List.append_nil, List.append_nil] at hline
    rw [hline, hcolumn]
  · cases hmore

end CandidateSearch.Source
