/-
# Reading a file page by page

The text branch of the `read` tool (`packages/coding-agent/src/core/tools/read.ts`). Offsets and limits are the
numbers of the tool call, which need not be whole. A notice is modelled by the numbers in it.
-/
import Mathlib.Data.Rat.Floor
import EasyPi.CodingAgent.TruncateReports
import EasyPi.Lib.Segments

namespace EasyPi.CodingAgent.ReadTool

open List Truncate

inductive Notice where
  | exceedsLimit (line : ℚ) (firstLineBytes : ℕ)
  | showing (startLine endLine : ℚ) (totalFileLines : ℕ) (truncatedBy : Option TruncatedBy) (nextOffset : ℚ)
  | moreLines (remaining nextOffset : ℚ)
  deriving DecidableEq

structure Page where
  content : Text
  notice : Option Notice
  deriving DecidableEq

inductive ReadError where
  | beyondEnd (offset : Option ℚ) (totalFileLines : ℕ)
  | noLine
  deriving DecidableEq

/-- A position that `slice` is given, in a list of `length`. -/
def sliceIndex (length : ℕ) (position : ℚ) : ℕ :=
  let index : ℤ := if position < 0 then ⌈position⌉ else ⌊position⌋
  (if index < 0 then length + index else index).toNat

def slice {α : Type*} (list : List α) (start stop : ℚ) : List α :=
  (list.take (sliceIndex list.length stop)).drop (sliceIndex list.length start)

/-- `list[index]`, which is there for whole numbers only. -/
def elementAt {α : Type*} (list : List α) (index : ℚ) : Option α :=
  if index.den = 1 then list[index.num.toNat]? else none

def read (textContent : Text) (offset limit : Option ℚ) : Except ReadError Page :=
  let allLines := textContent.splitOn newline
  let totalFileLines := allLines.length
  let startLine := (offset.filter (· ≠ 0)).elim 0 fun offset => max 0 (offset - 1)
  let startLineDisplay := startLine + 1
  if totalFileLines ≤ startLine then .error (.beyondEnd offset totalFileLines)
  else
    let endLine := limit.elim (totalFileLines : ℚ) fun limit => min (startLine + limit) totalFileLines
    let userLimitedLines := limit.map fun _ => endLine - startLine
    let truncation := truncateHead (joinLines newline (slice allLines startLine endLine))
    if truncation.firstLineExceedsLimit then
      match elementAt allLines startLine with
      | none => .error .noLine
      | some line => .ok ⟨[], some (.exceedsLimit startLineDisplay (byteLength line))⟩
    else if truncation.truncated then
      let endLineDisplay := startLineDisplay + truncation.outputLines - 1
      .ok ⟨truncation.content, some
        (.showing startLineDisplay endLineDisplay totalFileLines truncation.truncatedBy (endLineDisplay + 1))⟩
    else
      match userLimitedLines.filter fun lines => startLine + lines < totalFileLines with
      | some lines =>
        .ok ⟨truncation.content, some (.moreLines (totalFileLines - (startLine + lines)) (startLine + lines + 1))⟩
      | none => .ok ⟨truncation.content, none⟩

def Notice.nextOffset : Notice → Option ℚ
  | .exceedsLimit .. => none
  | .showing _ _ _ _ nextOffset | .moreLines _ nextOffset => some nextOffset

/-! ### A page -/

theorem truncateHead_firstLine (content : Text) : (truncateHead content).firstLineExceedsLimit =
    ((truncateHead content).truncated &&
      decide (defaultMaxBytes < byteLength ((splitLinesForCounting content).head?.getD []))) := by
  unfold truncateHead
  dsimp only [Option.getD_none]
  split
  · rfl
  · split
    · rename_i h
      simp [h]
    · rename_i h
      simp [h]

/-- What is shown of some lines: a first line that is too long is not, else the leading ones are, at least one. -/
theorem truncateHead_page {lines : List Text} (hne : lines ≠ []) (hnl : ∀ line ∈ lines, newline ∉ line) :
    let r := truncateHead (joinLines newline lines)
    (r.firstLineExceedsLimit = true ∧ defaultMaxBytes < byteLength (lines.head hne)) ∨
    r.firstLineExceedsLimit = false ∧ byteLength r.content ≤ defaultMaxBytes ∧
      ∃ k, 0 < k ∧ r.content = joinLines newline (lines.take k) ∧
        (r.truncated = true ∧ r.outputLines = k ∧ k < lines.length ∨ r.truncated = false ∧ k = lines.length) := by
  have hreport := (@truncateHead_reports (joinLines newline lines) {}).1
  have hfirst := truncateHead_firstLine (joinLines newline lines)
  obtain ⟨rest, hrest⟩ : splitLinesForCounting (joinLines newline lines) <+: lines := by
    have h := linesOf_prefix newline (joinLines newline lines)
    rwa [joinLines, splitOn_intercalate _ hnl hne] at h
  have hnil : splitLinesForCounting (joinLines newline lines) = [] → byteLength (joinLines newline lines) = 0 := by
    intro h
    rw [(linesOf_eq_nil_iff newline).mp h, byteLength_nil]
  generalize truncateHead (joinLines newline lines) = r at hreport hfirst
  have hbytes : byteLength r.content ≤ defaultMaxBytes := hreport.outputBytes ▸ hreport.bytes
  have htruncated := hreport.truncated
  have htotalLines := hreport.totalLines
  have htotalBytes := hreport.totalBytes
  have hroom := hreport.lines
  simp only [TruncationOptions.lineLimit, TruncationOptions.byteLimit, Option.getD_none] at htruncated hroom
  by_cases hcut : r.truncated = true
  · obtain ⟨hcount, hleading, hmaximal, -⟩ := hreport.leading hcut
    simp only [TruncationOptions.lineLimit, TruncationOptions.byteLimit, Option.getD_none] at hmaximal
    generalize hcounted : splitLinesForCounting (joinLines newline lines) = counted at *
    cases counted with
    | nil =>
      have := htruncated.mp hcut
      have := hnil rfl
      rw [length_nil] at htotalLines
      omega
    | cons line counted =>
      subst hrest
      rw [hcut, Bool.true_and, head?_cons, Option.getD_some] at hfirst
      by_cases hlong : defaultMaxBytes < byteLength line
      · exact .inl ⟨by simpa [hlong] using hfirst, hlong⟩
      · refine .inr ⟨by simpa [hlong] using hfirst, hbytes, r.outputLines, ?_, ?_, .inl ⟨hcut, rfl, ?_⟩⟩
        · by_contra hzero
          obtain hzero : r.outputLines = 0 := by omega
          have hone := hmaximal (by rw [hzero, htotalLines]; exact Nat.succ_pos _)
          rw [hzero, take_succ_cons, take_zero, joinLines_singleton] at hone
          simp only [defaultMaxLines] at hone
          omega
        · rw [take_append_of_le_length (by omega), hleading]
        · by_contra hall
          rw [length_append] at hall
          have hrest : rest = [] := length_eq_zero_iff.mp (by omega)
          have := htruncated.mp hcut
          rw [take_of_length_le (by omega)] at hleading
          rw [hrest, append_nil, ← hleading] at htotalBytes
          omega
  · have hwhole := hreport.whole (Bool.eq_false_iff.mpr hcut)
    rw [Bool.eq_false_iff.mpr hcut, Bool.false_and] at hfirst
    exact .inr ⟨hfirst, hbytes, lines.length, length_pos_iff.mpr hne, by rw [take_length, hwhole.1],
      .inr ⟨Bool.eq_false_iff.mpr hcut, rfl⟩⟩

/-- Some lines of the file, at least one, within the byte limit. -/
structure Part (lines : List Text) (first last : ℕ) (content : Text) : Prop where
  lt : first < last
  le : last ≤ lines.length
  bytes : byteLength content ≤ defaultMaxBytes
  eq : content = joinLines newline ((lines.take last).drop first)

/-- A page of the file from a line on. -/
def Page.Shows (lines : List Text) (first : ℕ) (page : Page) : Prop :=
  match page.notice with
  | none => Part lines first lines.length page.content
  | some (.moreLines remaining nextOffset) => ∃ last < lines.length, Part lines first last page.content ∧
      remaining = lines.length - last ∧ nextOffset = last + 1
  | some (.showing startLine endLine total _ nextOffset) => ∃ last < lines.length,
      Part lines first last page.content ∧ startLine = first + 1 ∧ endLine = last ∧ total = lines.length ∧
        nextOffset = last + 1
  | some (.exceedsLimit number bytes) => page.content = [] ∧ number = first + 1 ∧
      ∃ line, lines[first]? = some line ∧ bytes = byteLength line ∧ defaultMaxBytes < byteLength line

theorem sliceIndex_natCast (length n : ℕ) : sliceIndex length n = n := by
  have hneg : ¬(n : ℚ) < 0 := not_lt.mpr (Nat.cast_nonneg n)
  have hneg' : ¬(n : ℤ) < 0 := by omega
  rw [sliceIndex, if_neg hneg, Int.floor_natCast, if_neg hneg', Int.toNat_natCast]

theorem read_shows (textContent : Text) {first : ℕ} (hfirst : first < (textContent.splitOn newline).length)
    {limit : Option ℚ} (hlimit : ∀ l ∈ limit, ∃ n : ℕ, 0 < n ∧ l = n) :
    ∃ page, read textContent (some (first + 1)) limit = .ok page ∧ page.Shows (textContent.splitOn newline) first := by
  generalize hlines : textContent.splitOn newline = lines at hfirst ⊢
  have hnl : ∀ line ∈ lines, newline ∉ line := fun line h => not_mem_of_mem_splitOn (hlines ▸ h)
  obtain ⟨last, hlt, hle, hend⟩ : ∃ last, first < last ∧ last ≤ lines.length ∧
      limit.elim (lines.length : ℚ) (fun limit => min (first + limit) lines.length) = last := by
    cases limit with
    | none => exact ⟨_, hfirst, le_rfl, rfl⟩
    | some l =>
      obtain ⟨n, hpos, rfl⟩ := hlimit l rfl
      exact ⟨min (first + n) lines.length, by omega, by omega, by simp⟩
  have hstart : ((some ((first : ℚ) + 1)).filter (· ≠ 0)).elim 0 (fun offset => max 0 (offset - 1)) = (first : ℚ) := by
    have hpos : (first : ℚ) + 1 ≠ 0 := by positivity
    simp [Option.filter, hpos]
  have hslice : slice lines first last = (lines.take last).drop first := by
    rw [slice, sliceIndex_natCast, sliceIndex_natCast]
  have hlength : ((lines.take last).drop first).length = last - first := by
    rw [length_drop, length_take, min_eq_left hle]
  have hne : (lines.take last).drop first ≠ [] := length_pos_iff.mp (by omega)
  unfold read
  simp only [hlines, hstart, hend, hslice]
  rw [if_neg (by exact_mod_cast not_le.mpr hfirst)]
  rcases truncateHead_page hne (fun line h => hnl line (mem_of_mem_take (mem_of_mem_drop h))) with
    ⟨hlong, hhead⟩ | ⟨hshort, hbytes, k, hpos, hcontent, ⟨hcut, hcount, hk⟩ | ⟨hcut, hk⟩⟩
  · rw [head_drop, getElem_take] at hhead
    rw [if_pos hlong, elementAt, if_pos (Rat.den_natCast first), Rat.num_natCast, Int.toNat_natCast,
      getElem?_eq_getElem hfirst]
    exact ⟨_, rfl, rfl, rfl, _, getElem?_eq_getElem hfirst, rfl, hhead⟩
  · rw [if_neg (by simp [hshort]), if_pos hcut]
    refine ⟨_, rfl, first + k, by omega, ⟨by omega, by omega, hbytes, ?_⟩, rfl, ?_, rfl, ?_⟩
    · rw [hcontent, take_drop, take_take, min_eq_left (by omega)]
    · rw [hcount]
      push_cast
      ring
    · rw [hcount]
      push_cast
      ring
  · rw [if_neg (by simp [hshort]), if_neg (by simp [hcut])]
    rw [hk, take_length] at hcontent
    split
    · next userLimitedLines hmore =>
      obtain ⟨hsome, hlast⟩ := Option.filter_eq_some_iff.mp hmore
      obtain ⟨l, -, rfl⟩ := Option.map_eq_some_iff.mp hsome
      rw [add_sub_cancel, decide_eq_true_eq] at hlast
      simp only [add_sub_cancel]
      exact ⟨_, rfl, last, by exact_mod_cast hlast, ⟨hlt, hle, hbytes, hcontent⟩, rfl, rfl⟩
    · next hmore =>
      have hlast : last = lines.length := by
        cases limit with
        | none => exact Nat.cast_injective hend.symm
        | some l =>
          simp only [Option.map_some, Option.filter_eq_none_iff, Option.some.injEq, forall_eq', add_sub_cancel,
            decide_eq_true_eq] at hmore
          have : lines.length ≤ last := by exact_mod_cast not_lt.mp hmore
          omega
      subst hlast
      exact ⟨_, rfl, hlt, le_rfl, hbytes, hcontent⟩

/-! ### Reading on -/

/-- The reads so far with what they gave, each but the first at the offset of the notice before, and the offset
to read on at. -/
inductive Paging (Allowed : ℚ → Prop) (text : Text) : List (ℚ × Except ReadError Page) → Option ℚ → Prop
  | start : Paging Allowed text [] (some 1)
  | next {reads : List (ℚ × Except ReadError Page)} {offset : ℚ} (limit : Option ℚ)
      (h : Paging Allowed text reads (some offset)) (hlimit : ∀ l ∈ limit, Allowed l) :
      Paging Allowed text (reads ++ [(offset, read text (some offset) limit)])
        ((read text (some offset) limit).toOption.bind fun page => page.notice.bind Notice.nextOffset)

def shownContent : Except ReadError Page → Option Text
  | .ok ⟨_, some (.exceedsLimit ..)⟩ | .error _ => none
  | .ok page => some page.content

/-- The contents of the pages, without the notices. -/
def contents (reads : List (ℚ × Except ReadError Page)) : List Text := reads.filterMap (shownContent ·.2)

def Fits (line : Text) : Prop := byteLength line ≤ defaultMaxBytes

/-- The reads have shown the first `k` lines, once each. -/
structure Progress (lines : List Text) (reads : List (ℚ × Except ReadError Page)) (k : ℕ) : Prop where
  pages : ∀ r ∈ reads, ∃ (first : ℕ) (page : Page), r = ((first : ℚ) + 1, .ok page) ∧ page.Shows lines first
  empty : contents reads = [] ↔ k = 0
  content : joinLines newline (contents reads) = joinLines newline (lines.take k)
  fits : ∀ line ∈ lines.take k, Fits line

/-- Every read gives a page; when there is nothing to read on at, the pages are the file, or what is before its
first line that is too long, and the last page names this line. -/
def ShowsOnce (text : Text) (reads : List (ℚ × Except ReadError Page)) (next : Option ℚ) : Prop :=
  reads.length ≤ (text.splitOn newline).length ∧ ∃ k : ℕ, Progress (text.splitOn newline) reads k ∧
    match next with
    | some offset => offset = k + 1 ∧ k < (text.splitOn newline).length ∧ reads.length ≤ k
    | none => joinLines newline (contents reads) = text ∧ k = (text.splitOn newline).length ∨
      ∃ line, (text.splitOn newline)[k]? = some line ∧ ¬Fits line ∧
        ∃ r ∈ reads.getLast?, r.2 = .ok ⟨[], some (.exceedsLimit (k + 1) (byteLength line))⟩

theorem byteLength_le_join {line : Text} {lines : List Text} (h : line ∈ lines) :
    byteLength line ≤ byteLength (joinLines newline lines) := by
  obtain ⟨before, behind, rfl⟩ := append_of_mem h
  have hbehind := (byteLength_join_append before (line :: behind)).2
  have hline := (byteLength_join_append [line] behind).1
  rw [joinLines_singleton, singleton_append] at hline
  exact hline.trans hbehind

theorem Progress.step {lines : List Text} {reads : List (ℚ × Except ReadError Page)} {first last : ℕ} {page : Page}
    (h : Progress lines reads first) (hshows : page.Shows lines first) (hpart : Part lines first last page.content)
    (hshown : shownContent (.ok page) = some page.content) :
    Progress lines (reads ++ [((first : ℚ) + 1, .ok page)]) last := by
  obtain ⟨hlt, hle, hbytes, hcontent⟩ := hpart
  have hsplit : lines.take last = lines.take first ++ (lines.take last).drop first := by
    conv_lhs => rw [← take_append_drop first (lines.take last), take_take, min_eq_left hlt.le]
  have hcontents : contents (reads ++ [((first : ℚ) + 1, .ok page)]) = contents reads ++ [page.content] := by
    simp [contents, hshown]
  refine ⟨forall_mem_append.mpr ⟨h.pages, forall_mem_singleton.mpr ⟨first, page, rfl, hshows⟩⟩, ?_, ?_, ?_⟩
  · rw [hcontents]
    exact iff_of_false (append_ne_nil_of_right_ne_nil _ (cons_ne_nil _ _)) (by omega)
  · rw [hcontents]
    by_cases hzero : first = 0
    · rw [h.empty.mpr hzero, nil_append, joinLines_singleton, hcontent, hzero, drop_zero]
    · have htake : lines.take first ≠ [] := length_pos_iff.mp (by rw [length_take]; omega)
      have hdrop : (lines.take last).drop first ≠ [] := length_pos_iff.mp (by rw [length_drop, length_take]; omega)
      rw [joinLines_append newline (mt h.empty.mp hzero) (cons_ne_nil _ _), joinLines_singleton, h.content, hcontent,
        ← joinLines_append newline htake hdrop, ← hsplit]
  · rw [hsplit]
    refine forall_mem_append.mpr ⟨h.fits, fun line hline => ?_⟩
    exact (byteLength_le_join hline).trans (hcontent ▸ hbytes)

/-- Reading on with whole limits shows the file once. -/
theorem paging_shows_once (text : Text) (reads : List (ℚ × Except ReadError Page)) (next : Option ℚ)
    (h : Paging (fun limit => ∃ n : ℕ, 0 < n ∧ limit = n) text reads next) : ShowsOnce text reads next := by
  induction h with
  | start =>
    have hpos := length_pos_iff.mpr (splitOn_ne_nil newline text)
    exact ⟨hpos.le, 0, ⟨by simp, by simp [contents], rfl, by simp⟩, by norm_num, hpos, le_rfl⟩
  | @next reads offset limit _ hlimit ih =>
    obtain ⟨-, first, hprogress, rfl, hfirst, hlength⟩ := ih
    obtain ⟨page, hread, hshows⟩ := read_shows text hfirst hlimit
    rw [hread, ShowsOnce, length_append, length_singleton]
    have hpage := hshows
    obtain ⟨content, notice⟩ := page
    rcases notice with - | ⟨number, bytes⟩ | ⟨_, _, _, _, nextOffset⟩ | ⟨remaining, nextOffset⟩
    · have hend := hprogress.step hshows hpage rfl
      refine ⟨by omega, _, hend, .inl ⟨?_, rfl⟩⟩
      rw [hend.content, take_length, joinLines, intercalate_splitOn]
    · obtain ⟨rfl, rfl, line, hline, rfl, hlong⟩ := hpage
      have hcontents : contents (reads ++ [((first : ℚ) + 1, .ok ⟨[], some (.exceedsLimit (first + 1) (byteLength line))⟩)]) =
          contents reads := by
        simp [contents, shownContent]
      refine ⟨by omega, first, ⟨?_, by rw [hcontents, hprogress.empty], by rw [hcontents, hprogress.content],
        hprogress.fits⟩, .inr ⟨line, hline, not_le.mpr hlong, _, getLast?_concat, rfl⟩⟩
      exact forall_mem_append.mpr ⟨hprogress.pages, forall_mem_singleton.mpr ⟨first, _, rfl, hshows⟩⟩
    · obtain ⟨last, hlast, hpart, -, -, -, rfl⟩ := hpage
      have := hpart.lt
      exact ⟨by omega, last, hprogress.step hshows hpart rfl, rfl, hlast, by omega⟩
    · obtain ⟨last, hlast, hpart, -, rfl⟩ := hpage
      have := hpart.lt
      exact ⟨by omega, last, hprogress.step hshows hpart rfl, rfl, hlast, by omega⟩

/-- One line, and then the rest. -/
theorem paging_shows_once_lines : ∃ text reads next, reads.length = 2 ∧ ShowsOnce text reads next := by
  let text := Text.ofChars ['a', '\n', 'b', '\n', 'c']
  have hread : read text (some 1) (some 1) = .ok ⟨Text.ofChars ['a'], some (.moreLines 2 2)⟩ := by decide +kernel
  have hfirst : Paging (fun limit => ∃ n : ℕ, 0 < n ∧ limit = n) text [(1, read text (some 1) (some 1))] (some 2) := by
    have h := Paging.next (some 1) (@Paging.start (fun limit => ∃ n : ℕ, 0 < n ∧ limit = n) text)
      (by simpa using ⟨1, by norm_num⟩)
    rw [hread] at h ⊢
    exact h
  exact ⟨text, _, _, rfl, paging_shows_once _ _ _ (.next none hfirst nofun)⟩

/-- A limit of half a line shows nothing, and offers to read on in the middle of a line. -/
theorem paging_half_line : ∃ text reads next, Paging (0 < ·) text reads next ∧ ¬ShowsOnce text reads next := by
  have hread : read (Text.ofChars ['a']) (some 1) (some (1 / 2)) = .ok ⟨[], some (.moreLines (1 / 2) (3 / 2))⟩ := by
    decide +kernel
  refine ⟨Text.ofChars ['a'], _, _, .next (some (1 / 2)) .start (by simp), ?_⟩
  rintro ⟨-, k, -, hnext⟩
  rw [hread] at hnext
  obtain ⟨hoffset, -⟩ : (3 / 2 : ℚ) = k + 1 ∧ _ := hnext
  have hhalf : (2 * k : ℚ) = 1 := by linarith
  have : 2 * k = 1 := by exact_mod_cast hhalf
  omega

end EasyPi.CodingAgent.ReadTool
