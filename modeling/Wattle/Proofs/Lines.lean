import Wattle.Source

/-!
# Lines of texts

What `SourceFile.line` cuts out of a text.  The table of line starts is taken apart line by line
(`line_induction`): the range at an index is that of the piece there when the text is split at its
line feeds (`stands_range?`), which is also what stands behind so many line feeds
(`map_head_skip?`).

A line is also found by the characters in front of a place in it.  The line feeds in front are the
number of the line, less one (`skip?_count`), and `last` is what stands in front on the same line.

* `trim_snoc`, `trim_append`   carriage returns at the end of a line, and other characters there;
* `exists_last`                a text is one line, or it has a last line feed;
* `SourceFile.line_append`     the line of a piece of text that has no line feed;
* `SourceFile.line_splitOn`    the lines of a text are its pieces between line feeds.
-/

namespace Wattle

/-! ### bytes -/

theorem utf8ByteSize_ofList_append (a b : List Char) :
    (String.ofList (a ++ b)).utf8ByteSize =
      (String.ofList a).utf8ByteSize + (String.ofList b).utf8ByteSize := by
  rw [String.ofList_append, String.utf8ByteSize_append]

theorem utf8ByteSize_ofList_singleton (c : Char) :
    (String.ofList [c]).utf8ByteSize = c.utf8Size := by
  rw [← String.singleton_eq_ofList, String.utf8ByteSize_singleton]

theorem utf8ByteSize_ofList_cons (c : Char) (cs : List Char) :
    (String.ofList (c :: cs)).utf8ByteSize = c.utf8Size + (String.ofList cs).utf8ByteSize := by
  rw [← List.singleton_append, utf8ByteSize_ofList_append, utf8ByteSize_ofList_singleton]

/-- the bytes of a part of a text -/
theorem extract_toByteArray (a b c : String) :
    (a ++ b ++ c).toByteArray.extract a.utf8ByteSize (a.utf8ByteSize + b.utf8ByteSize) =
      b.toByteArray := by
  have hback := ByteArray.extract_append_size_add (a := a.toByteArray)
    (b := b.toByteArray ++ c.toByteArray) (i := 0) (j := b.toByteArray.size)
  rw [String.append_assoc, String.toByteArray_append, String.toByteArray_append,
    ← String.size_toByteArray, ← String.size_toByteArray]
  exact hback.trans (ByteArray.extract_append_eq_left rfl)

namespace Line

/-- what stands behind the first line feed -/
def tail? : List Char → Option (List Char)
  | [] => none
  | c :: cs => if c = '\n' then some cs else tail? cs

/-- what is left behind the first `n` line feeds -/
def skip? : Nat → List Char → Option (List Char)
  | 0, cs => some cs
  | n + 1, cs =>
    match tail? cs with
    | none => none
    | some rest => skip? n rest

/-- the text up to its first line feed -/
def head (cs : List Char) : List Char := cs.takeWhile (· ≠ '\n')

/-- what stands behind the last line feed -/
def last (cs : List Char) : List Char := (cs.reverse.takeWhile (· ≠ '\n')).reverse

theorem skip?_zero (cs : List Char) : skip? 0 cs = some cs := rfl

theorem skip?_succ (n : Nat) (cs : List Char) :
    skip? (n + 1) cs = (tail? cs).bind (skip? n) := by
  simp only [skip?]
  cases tail? cs <;> rfl

/-! ### lines one by one -/

/-- a text is one line, or a line in front of others -/
@[elab_as_elim]
theorem line_induction {motive : List Char → Prop} (line : ∀ a, '\n' ∉ a → motive a)
    (lines : ∀ a b, '\n' ∉ a → motive b → motive (a ++ '\n' :: b)) (cs : List Char) :
    motive cs := by
  by_cases h : '\n' ∈ cs
  · obtain ⟨a, b, hcs, ha⟩ := List.eq_append_cons_of_mem h
    have hlt : b.length < cs.length := by
      rw [hcs, List.length_append, List.length_cons]
      omega
    rw [hcs]
    exact lines a b ha (line_induction line lines b)
  · exact line cs h
termination_by cs.length

section
variable {a : List Char} (ha : '\n' ∉ a) (b : List Char)
include ha

theorem splitOn_line : a.splitOn '\n' = [a] := List.splitOn_eq_singleton ha

theorem splitOn_lines : (a ++ '\n' :: b).splitOn '\n' = a :: b.splitOn '\n' := by
  rw [List.splitOn_append_cons_of_beq a b (beq_self_eq_true '\n'), splitOn_line ha,
    List.singleton_append]

theorem starts_line (n : Nat) : starts n a = [] := by
  induction a generalizing n with
  | nil => rfl
  | cons c a ih =>
    obtain ⟨hc, ha⟩ := not_or.1 (mt List.mem_cons.2 ha)
    rw [starts, if_neg (Ne.symm hc), ih ha]

theorem starts_lines (n : Nat) :
    starts n (a ++ '\n' :: b) =
      (n + (String.ofList a).utf8ByteSize + 1) ::
        starts (n + (String.ofList a).utf8ByteSize + 1) b := by
  induction a generalizing n with
  | nil => rfl
  | cons c a ih =>
    obtain ⟨hc, ha⟩ := not_or.1 (mt List.mem_cons.2 ha)
    rw [List.cons_append, starts, if_neg (Ne.symm hc), ih ha, utf8ByteSize_ofList_cons,
      Nat.add_assoc n]

theorem tail?_line : tail? a = none := by
  induction a with
  | nil => rfl
  | cons c a ih =>
    obtain ⟨hc, ha⟩ := not_or.1 (mt List.mem_cons.2 ha)
    rw [tail?, if_neg (Ne.symm hc), ih ha]

theorem tail?_lines : tail? (a ++ '\n' :: b) = some b := by
  induction a with
  | nil => rfl
  | cons c a ih =>
    obtain ⟨hc, ha⟩ := not_or.1 (mt List.mem_cons.2 ha)
    rw [List.cons_append, tail?, if_neg (Ne.symm hc), ih ha]

theorem head_append : head (a ++ b) = a ++ head b :=
  List.takeWhile_append_of_pos fun _ hc => decide_eq_true (ne_of_mem_of_not_mem hc ha)

end

/-- there is one more line than there are line feeds -/
theorem length_splitOn (cs : List Char) :
    (cs.splitOn '\n').length = cs.count '\n' + 1 := by
  induction cs using line_induction with
  | line a ha => rw [splitOn_line ha, List.count_eq_zero.2 ha, List.length_singleton]
  | lines a b ha ih =>
    rw [splitOn_lines ha, List.length_cons, ih, List.count_append, List.count_eq_zero.2 ha,
      List.count_cons_self, Nat.zero_add]

/-- the pieces between line feeds are what stands behind so many of them, up to the next one -/
theorem map_head_skip? (n : Nat) (cs : List Char) :
    (skip? n cs).map head = (cs.splitOn '\n')[n]? := by
  induction cs using line_induction generalizing n with
  | line a ha =>
    have hhead : head a = a := by simpa [head] using head_append ha []
    cases n with
    | zero => rw [skip?_zero, splitOn_line ha, Option.map_some, hhead]; rfl
    | succ n => rw [skip?_succ, tail?_line ha, splitOn_line ha]; rfl
  | lines a b ha ih =>
    have hhead : head (a ++ '\n' :: b) = a := by
      rw [head_append ha]
      exact List.append_nil a
    cases n with
    | zero => rw [skip?_zero, splitOn_lines ha, Option.map_some, hhead]; rfl
    | succ n => rw [skip?_succ, tail?_lines ha, Option.bind_some, splitOn_lines ha, ih]; rfl

/-! ### slices -/

theorem cut?_append (a b : List Char) :
    cut? (String.ofList a).utf8ByteSize (a ++ b) = some (a, b) := by
  induction a with
  | nil => simp [cut?]
  | cons c a ih =>
    have hpos := c.utf8Size_pos
    rw [utf8ByteSize_ofList_cons]
    obtain ⟨n, hn⟩ : ∃ n, c.utf8Size + (String.ofList a).utf8ByteSize = n + 1 :=
      ⟨_, (Nat.sub_add_cancel (by omega)).symm⟩
    rw [hn, List.cons_append, cut?, if_neg (by omega), ← hn, Nat.add_sub_cancel_left, ih]
    rfl

theorem slice?_append (a b c : List Char) :
    slice? (String.ofList a).utf8ByteSize (String.ofList (a ++ b)).utf8ByteSize (a ++ b ++ c) =
      some b := by
  rw [slice?, utf8ByteSize_ofList_append, if_neg (by omega), List.append_assoc, cut?_append,
    Nat.add_sub_cancel_left]
  show (cut? (String.ofList b).utf8ByteSize (b ++ c)).map Prod.fst = some b
  rw [cut?_append, Option.map_some]

/-- where a piece of a text stands, by the offsets of its bytes, behind what is in front of the
text -/
inductive Stands (before cs piece : List Char) : Nat × Nat → Prop
  | intro {a b : List Char} (hcs : cs = a ++ piece ++ b) :
      Stands before cs piece ((String.ofList (before ++ a)).utf8ByteSize,
        (String.ofList (before ++ a ++ piece)).utf8ByteSize)

theorem Stands.append {before a b piece : List Char} {range : Nat × Nat}
    (h : Stands (before ++ a) b piece range) : Stands before (a ++ b) piece range := by
  obtain @⟨front, behind, rfl⟩ := h
  rw [List.append_assoc before a front]
  exact .intro (b := behind) (by simp)

theorem Stands.rel_append {before a b : List Char} {piece : Option (List Char)}
    {range : Option (Nat × Nat)} (h : Option.Rel (Stands (before ++ a) b) piece range) :
    Option.Rel (Stands before (a ++ b)) piece range := by
  cases h with
  | none => exact .none
  | some h => exact .some h.append

/-- the slice of a range is the piece that stands there -/
theorem slice?_of_stands {cs piece : List Char} {start stop : Nat}
    (h : Stands [] cs piece (start, stop)) : slice? start stop cs = some piece := by
  obtain ⟨rfl⟩ := h
  exact slice?_append _ piece _

/-- the range at an index is that of the piece there -/
theorem stands_range? (before cs : List Char) (n : Nat) :
    Option.Rel (Stands before cs) (cs.splitOn '\n')[n]?
      (range? ((String.ofList before).utf8ByteSize :: starts (String.ofList before).utf8ByteSize cs)
        (String.ofList (before ++ cs)).utf8ByteSize n) := by
  induction cs using line_induction generalizing before n with
  | line a ha =>
    rw [splitOn_line ha, starts_line ha]
    cases n with
    | zero =>
      have hstands : Stands before a a _ := .intro (a := []) (b := []) (by simp)
      rw [List.append_nil] at hstands
      exact .some hstands
    | succ n => exact .none
  | lines a b ha ih =>
    rw [splitOn_lines ha, starts_lines ha]
    cases n with
    | zero =>
      have hstands : Stands before (a ++ '\n' :: b) a _ :=
        .intro (a := []) (b := '\n' :: b) (by simp)
      rw [List.append_nil, utf8ByteSize_ofList_append] at hstands
      exact .some hstands
    | succ n =>
      -- the line feed is in front of the other lines
      have hfront : (String.ofList (before ++ (a ++ ['\n']))).utf8ByteSize =
          (String.ofList before).utf8ByteSize + (String.ofList a).utf8ByteSize + 1 := by
        rw [utf8ByteSize_ofList_append, utf8ByteSize_ofList_append, utf8ByteSize_ofList_singleton,
          ← Nat.add_assoc]
        rfl
      have hnext := Stands.rel_append (ih (before ++ (a ++ ['\n'])) n)
      rw [hfront, List.append_assoc before, ← List.append_cons] at hnext
      exact hnext

section
variable {a b : List Char}

/-! ### carriage returns at the end -/

theorem trim_snoc (a : List Char) : trim (a ++ ['\r']) = trim a := by
  rw [trim, trim, List.reverse_append]
  rfl

/-- carriage returns are cut off behind any other character -/
theorem trim_append (a b : List Char) {c : Char} (hc : c ≠ '\r') :
    trim (a ++ c :: b) = a ++ c :: trim b := by
  have hstop : ([c] ++ a.reverse).dropWhile (· = '\r') = [c] ++ a.reverse :=
    List.dropWhile_cons_of_neg (by simpa using hc)
  have hreverse : (a ++ c :: b).reverse = b.reverse ++ ([c] ++ a.reverse) := by simp
  rw [trim, trim, hreverse, List.dropWhile_append, hstop]
  split
  · next h =>
    rw [List.isEmpty_iff.1 h]
    simp
  · simp

/-- what stands in front of the carriage returns at the end -/
theorem exists_trim (cs : List Char) : ∃ returns, cs = trim cs ++ List.replicate returns '\r' ∧
    (trim cs).getLast? ≠ some '\r' := by
  refine ⟨(cs.reverse.takeWhile (· = '\r')).length, ?_, ?_⟩
  · have hreturns : cs.reverse.takeWhile (· = '\r') =
        List.replicate (cs.reverse.takeWhile (· = '\r')).length '\r' :=
      List.eq_replicate_iff.2 ⟨rfl, fun c hc =>
        by simpa using List.all_eq_true.1 List.all_takeWhile c hc⟩
    have hsplit := List.takeWhile_append_dropWhile (p := (· = '\r')) (l := cs.reverse)
    rw [hreturns] at hsplit
    simpa [trim] using (congrArg List.reverse hsplit).symm
  · intro hlast
    have hstop := List.head?_dropWhile_not (· = '\r') cs.reverse
    rw [trim, List.getLast?_reverse] at hlast
    rw [hlast] at hstop
    simp at hstop

/-! ### the last line feed -/

theorem exists_last (cs : List Char) :
    '\n' ∉ cs ∨ ∃ a b, cs = a ++ '\n' :: b ∧ '\n' ∉ b := by
  induction cs with
  | nil => exact .inl List.not_mem_nil
  | cons c cs ih =>
    obtain hline | ⟨a, b, rfl, hb⟩ := ih
    · by_cases hc : c = '\n'
      · exact .inr ⟨[], cs, by rw [hc, List.nil_append], hline⟩
      · exact .inl (mt List.mem_cons.1 (not_or.2 ⟨Ne.symm hc, hline⟩))
    · exact .inr ⟨c :: a, b, rfl, hb⟩

private theorem takeWhile_reverse (hb : '\n' ∉ b) (rest : List Char) :
    (b.reverse ++ rest).takeWhile (· ≠ '\n') = b.reverse ++ rest.takeWhile (· ≠ '\n') := by
  refine List.takeWhile_append_of_pos fun c hc => ?_
  rw [List.mem_reverse] at hc
  exact decide_eq_true (ne_of_mem_of_not_mem hc hb)

theorem last_append_of_line (a : List Char) (hb : '\n' ∉ b) : last (a ++ b) = last a ++ b := by
  rw [last, last, List.reverse_append, takeWhile_reverse hb, List.reverse_append,
    List.reverse_reverse]

theorem last_of_line (hb : '\n' ∉ b) : last b = b := last_append_of_line [] hb

theorem last_line_feed (a : List Char) (hb : '\n' ∉ b) : last (a ++ '\n' :: b) = b := by
  have hfeed : last (a ++ ['\n']) = [] := by
    rw [last, List.reverse_append]
    rfl
  rw [List.append_cons, last_append_of_line _ hb, hfeed, List.nil_append]

theorem not_mem_last (cs : List Char) : '\n' ∉ last cs := by
  obtain h | ⟨a, b, rfl, hb⟩ := exists_last cs
  · rwa [last_of_line h]
  · rwa [last_line_feed a hb]

/-! ### lines by their numbers -/

/-- behind a line feed one more line has been skipped -/
theorem skip?_line_feed (a rest : List Char) :
    skip? (a.count '\n' + 1) (a ++ '\n' :: rest) = some rest := by
  induction a with
  | nil => rfl
  | cons c a ih =>
    by_cases hc : c = '\n'
    · subst hc
      rw [List.count_cons_self, List.cons_append, skip?_succ]
      exact ih
    · rw [skip?_succ] at ih ⊢
      rw [List.count_cons_of_ne hc, List.cons_append, tail?, if_neg hc]
      exact ih

theorem skip?_count (cs rest : List Char) :
    skip? (cs.count '\n') (cs ++ rest) = some (last cs ++ rest) := by
  obtain h | ⟨a, b, rfl, hb⟩ := exists_last cs
  · rw [List.count_eq_zero.2 h, last_of_line h]
    rfl
  · rw [last_line_feed a hb, List.count_append, List.count_cons_self, List.count_eq_zero.2 hb,
      List.append_assoc]
    exact skip?_line_feed a (b ++ rest)

end

end Line

namespace SourceFile

variable (file : SourceFile)

/-- the pieces between line feeds, and from where to where their bytes go -/
theorem stands_lineRange? (n : Nat) :
    Option.Rel (Line.Stands [] file.text.toList) (file.text.toList.splitOn '\n')[n]?
      (file.lineRange? (n + 1)) := by
  simpa [lineRange?, lineStarts] using Line.stands_range? [] file.text.toList n

/-- a line is a piece between line feeds, without the carriage returns at its end -/
theorem line_eq_map (n : Nat) :
    file.line (n + 1) =
      (file.text.toList.splitOn '\n')[n]?.map fun piece => String.ofList (Line.trim piece) := by
  have hrange := file.stands_lineRange? n
  rw [line]
  generalize (file.text.toList.splitOn '\n')[n]? = piece at hrange ⊢
  generalize file.lineRange? (n + 1) = range at hrange ⊢
  cases hrange with
  | none => rfl
  | @some piece range h =>
    obtain ⟨start, stop⟩ := range
    show (Line.slice? start stop _).map _ = some _
    rw [Line.slice?_of_stands h, Option.map_some]

/-- a line is what stands behind so many line feeds, up to the next one -/
theorem line_succ (n : Nat) :
    file.line (n + 1) = (Line.skip? n file.text.toList).map fun cs =>
      String.ofList (Line.trim (Line.head cs)) := by
  rw [line_eq_map, ← Line.map_head_skip?, Option.map_map]
  rfl

end SourceFile

/-- the line of a piece of text: what stands in front of the piece, the piece, and what is behind it
up to the line feed, without carriage returns at the end -/
theorem SourceFile.line_append {file : SourceFile} {before piece behind : List Char}
    (htext : file.text.toList = before ++ piece ++ behind) (hne : piece ≠ [])
    (hfeed : '\n' ∉ piece) (hreturn : '\r' ∉ piece) :
    file.line (1 + before.count '\n') =
      some (String.ofList (Line.last before ++ piece ++ Line.trim (Line.head behind))) := by
  obtain ⟨front, c, rfl⟩ : ∃ front c, piece = front ++ [c] :=
    ⟨_, _, (List.dropLast_concat_getLast hne).symm⟩
  have hc : c ≠ '\r' := fun e => hreturn (by simp [e])
  have hhead : '\n' ∉ Line.last before ++ (front ++ [c]) := by
    rw [List.mem_append]
    exact not_or.2 ⟨Line.not_mem_last before, hfeed⟩
  rw [Nat.add_comm, line_succ, htext, List.append_assoc, Line.skip?_count, Option.map_some,
    ← List.append_assoc, Line.head_append hhead]
  have hfront : Line.last before ++ (front ++ [c]) ++ Line.head behind =
      (Line.last before ++ front) ++ c :: Line.head behind := by simp
  rw [hfront, Line.trim_append _ _ hc]
  simp

/-! ### lines by splitting -/

/-- the bytes from one offset to another are a piece of the text, and no character is cut -/
structure SourceFile.Slices (file : SourceFile) (start stop : Nat) (piece : List Char) : Prop where
  le : start ≤ stop
  first : String.Pos.Raw.IsValid file.text ⟨start⟩
  last : String.Pos.Raw.IsValid file.text ⟨stop⟩
  bytes : file.text.toByteArray.extract start stop = (String.ofList piece).toByteArray

theorem SourceFile.slices_of_stands {file : SourceFile} {start stop : Nat} {piece : List Char}
    (h : Line.Stands [] file.text.toList piece (start, stop)) : file.Slices start stop piece := by
  obtain @⟨a, b, hcs⟩ := h
  have htext : file.text = String.ofList a ++ String.ofList piece ++ String.ofList b := by
    rw [← String.ofList_append, ← String.ofList_append, ← hcs, String.ofList_toList]
  have hsize := utf8ByteSize_ofList_append a piece
  rw [List.nil_append]
  refine ⟨by omega, ?_, ?_, ?_⟩
  · rw [String.Pos.Raw.isValid_iff_exists_append]
    exact ⟨_, _, by rw [htext, String.append_assoc], rfl⟩
  · rw [String.Pos.Raw.isValid_iff_exists_append]
    exact ⟨_, _, htext, by rw [← String.ofList_append]; rfl⟩
  · rw [htext, hsize]
    exact extract_toByteArray _ _ _

/-- **A line is a piece of the text between line feeds, without the carriage returns at its end.**
The lines are numbered from `1`, there is one more of them than there are line feeds, and there are
no others.  The bytes that are cut out for a line are those of its piece. -/
theorem SourceFile.line_splitOn (file : SourceFile) (n : Nat) :
    if 1 ≤ n ∧ n ≤ 1 + file.text.toList.count '\n' then
      ∃ start stop piece line returns,
        file.lineRange? n = some (start, stop) ∧ file.Slices start stop piece ∧
        Line.slice? start stop file.text.toList = some piece ∧
        (file.text.toList.splitOn '\n')[n - 1]? = some piece ∧
        piece = line.toList ++ List.replicate returns '\r' ∧ line.toList.getLast? ≠ some '\r' ∧
        file.line n = some line
    else file.lineRange? n = none ∧ file.line n = none := by
  cases n with
  | zero => exact ⟨rfl, rfl⟩
  | succ n =>
    have hlength := Line.length_splitOn file.text.toList
    have hrange := file.stands_lineRange? n
    have hline := file.line_eq_map n
    split
    case isTrue h =>
      have hpiece := List.getElem?_eq_getElem
        (show n < (file.text.toList.splitOn '\n').length by omega)
      generalize (file.text.toList.splitOn '\n')[n] = piece at hpiece
      rw [hpiece] at hrange hline
      generalize hfound : file.lineRange? (n + 1) = range at hrange
      cases hrange with | @some _ range hstands
      obtain ⟨start, stop⟩ := range
      obtain ⟨returns, htrim, hlast⟩ := Line.exists_trim piece
      refine ⟨start, stop, piece, String.ofList (Line.trim piece), returns, rfl,
        slices_of_stands hstands, Line.slice?_of_stands hstands, hpiece, ?_, ?_, hline⟩
      · rw [String.toList_ofList]
        exact htrim
      · rw [String.toList_ofList]
        exact hlast
    case isFalse h =>
      have hpiece := List.getElem?_eq_none
        (show (file.text.toList.splitOn '\n').length ≤ n by omega)
      rw [hpiece] at hrange hline
      generalize hfound : file.lineRange? (n + 1) = range at hrange
      cases hrange
      exact ⟨rfl, hline⟩

end Wattle
