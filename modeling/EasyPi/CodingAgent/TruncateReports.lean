/-
# What a truncation reports

The content that a truncation returns is made of whole lines, or of the end of the last line if
this line alone exceeds the byte limit. It stays within both limits, and one more line would not.
The counts that are reported are those of the content. The limit that is reported as hit is not
always the one: when only the line break at the end exceeds the byte limit, or when a single line
is cut under a limit of one line, the line limit is blamed.
-/
import EasyPi.CodingAgent.Truncate

namespace EasyPi.CodingAgent

open List
namespace Truncate

variable (options : TruncationOptions)

def TruncationOptions.lineLimit : ℕ := options.maxLines.getD defaultMaxLines

def TruncationOptions.byteLimit : ℕ := options.maxBytes.getD defaultMaxBytes

/-- What holds of both truncations, but for the limit that is blamed. -/
structure Report (content : Text) (options : TruncationOptions) (r : TruncationResult) : Prop where
  totalLines : r.totalLines = (splitLinesForCounting content).length
  totalBytes : r.totalBytes = byteLength content
  truncated : r.truncated = true ↔ options.lineLimit < r.totalLines ∨ options.byteLimit < r.totalBytes
  whole : r.truncated = false → r.content = content ∧ r.outputLines = r.totalLines ∧ r.truncatedBy = none
  outputBytes : r.outputBytes = byteLength r.content
  lines : r.outputLines ≤ options.lineLimit
  bytes : r.outputBytes ≤ options.byteLimit

/-- The content is the leading lines, as many as the limits allow. -/
structure LeadingLines (content : Text) (options : TruncationOptions) (r : TruncationResult) : Prop where
  count : r.outputLines ≤ r.totalLines
  leading : r.content = joinLines newline ((splitLinesForCounting content).take r.outputLines)
  maximal : r.outputLines < r.totalLines → r.outputLines = options.lineLimit ∨
    options.byteLimit < byteLength (joinLines newline ((splitLinesForCounting content).take (r.outputLines + 1)))
  byBytes : r.truncatedBy = some .bytes → r.outputLines < r.totalLines ∧
    options.byteLimit < byteLength (joinLines newline ((splitLinesForCounting content).take (r.outputLines + 1)))

/-- The content is the trailing lines, as many as the limits allow. -/
structure TrailingLines (content : Text) (options : TruncationOptions) (r : TruncationResult) : Prop where
  count : r.outputLines ≤ r.totalLines
  trailing : r.content = joinLines newline ((splitLinesForCounting content).drop (r.totalLines - r.outputLines))
  maximal : r.outputLines < r.totalLines → r.outputLines = options.lineLimit ∨ options.byteLimit <
    byteLength (joinLines newline ((splitLinesForCounting content).drop (r.totalLines - (r.outputLines + 1))))
  byBytes : r.truncatedBy = some .bytes → r.outputLines < r.totalLines ∧ options.byteLimit <
    byteLength (joinLines newline ((splitLinesForCounting content).drop (r.totalLines - (r.outputLines + 1))))

/-- The content is the end of the last line, which is too long. It begins at a boundary of two
characters, the first that leaves no more than the limit; unpaired surrogates are replaced. -/
def CutLine (content : Text) (options : TruncationOptions) (r : TruncationResult) : Prop :=
  ∃ lines line a b, splitLinesForCounting content = lines ++ [line] ∧ options.byteLimit < byteLength line ∧
    line = a ++ b ∧ r.content = Text.wellFormed b ∧ utf8 r.content = utf8 b ∧ r.outputLines = 1 ∧
    ∀ p a', a = a' ++ [p] → options.byteLimit < byteLength (p :: b)

/-- The line limit is blamed only if there are more lines. -/
def BlamesLines (r : TruncationResult) : Prop :=
  r.truncatedBy = some .lines → options.lineLimit < r.totalLines

/-- What `truncateHead` reports. -/
structure HeadReport (content : Text) (options : TruncationOptions) (r : TruncationResult) : Prop
    extends Report content options r where
  leading : r.truncated = true → LeadingLines content options r

/-- What `truncateTail` reports. -/
structure TailReport (content : Text) (options : TruncationOptions) (r : TruncationResult) : Prop
    extends Report content options r where
  trailing : r.truncated = true → r.lastLinePartial = false → TrailingLines content options r
  cut : r.lastLinePartial = true → CutLine content options r

/-- Not only the line break at the end exceeds the byte limit. -/
def NotBrokenOver (content : Text) (options : TruncationOptions) : Prop :=
  ¬ (brokenAtEnd newline content = true ∧ byteLength content = options.byteLimit + 1)

/-- The limit that is blamed is the right one: there are too many lines, or not only the line break at
the end exceeds the byte limit, and no single line is cut under a limit of one line. -/
def BlamesRightLimit (content : Text) (options : TruncationOptions) : Prop :=
  options.lineLimit < (splitLinesForCounting content).length ∨ NotBrokenOver content options ∧
      (options.lineLimit = 1 → ∀ line ∈ splitLinesForCounting content, byteLength line ≤ options.byteLimit)

section
variable {content : Text} {options : TruncationOptions}

theorem report_of_within (h : (splitLinesForCounting content).length ≤ options.lineLimit ∧
    byteLength content ≤ options.byteLimit) {r : TruncationResult} (hr : r =
      { content := content, truncated := false, truncatedBy := none
        totalLines := (splitLinesForCounting content).length, totalBytes := byteLength content
        outputLines := (splitLinesForCounting content).length, outputBytes := byteLength content
        lastLinePartial := false, firstLineExceedsLimit := false, maxLines := options.lineLimit
        maxBytes := options.byteLimit }) : Report content options r := by
  subst hr
  refine ⟨rfl, rfl, ?_, fun _ => ⟨rfl, rfl, rfl⟩, rfl, h.1, h.2⟩
  dsimp only
  simp only [Bool.false_eq_true, false_iff]
  omega

theorem notBrokenOver_of_le (h : byteLength content ≤ options.byteLimit) : NotBrokenOver content options :=
  fun hover => by omega

theorem notBrokenOver_of_lines (h : options.byteLimit <
    byteLength (joinLines newline (splitLinesForCounting content))) : NotBrokenOver content options := by
  rintro ⟨hbro, hbyt⟩
  rw [byteLength_eq_join content, if_pos hbro] at hbyt
  omega

/-- A content that exceeds the byte limit although its lines do not is broken over it. -/
theorem brokenOver_of_lines (h : byteLength (joinLines newline (splitLinesForCounting content)) ≤ options.byteLimit)
    (hover : options.byteLimit < byteLength content) : ¬ NotBrokenOver content options := by
  rw [NotBrokenOver, not_not]
  rw [byteLength_eq_join content] at hover ⊢
  split at hover
  · rename_i hbro
    rw [if_pos hbro]
    exact ⟨hbro, by omega⟩
  · omega

variable {n k : ℕ} {bytes : ℕ → ℕ} {reason : TruncatedBy} (h : Stopped options.lineLimit options.byteLimit n 0 bytes k reason)
include h

theorem Stopped.maximal (hlt : k < n) : k = options.lineLimit ∨ options.byteLimit < bytes (k + 1) := by
  cases reason with
  | lines =>
    have := h.ended rfl
    omega
  | bytes => exact .inr (h.excess rfl).2.2

theorem Stopped.byBytes {full : Prop} [Decidable full] (hreason : some (if full then .lines else reason) = some .bytes) :
    k < n ∧ options.byteLimit < bytes (k + 1) := by
  split at hreason
  · cases hreason
  · cases hreason
    exact ⟨(h.excess rfl).1, (h.excess rfl).2.2⟩

/-- A loop that stops blames the right limit, unless all lines have been collected, but not all bytes. -/
theorem Stopped.blames (hnext : reason = .bytes → NotBrokenOver content options)
    (hall : k = n → ¬ NotBrokenOver content options) :
    (some (if k ≥ options.lineLimit ∧ bytes k ≤ options.byteLimit then .lines else reason) = some .lines →
      options.lineLimit < n) ↔ options.lineLimit < n ∨ NotBrokenOver content options := by
  constructor
  · intro hblame
    cases reason with
    | bytes => exact .inr (hnext rfl)
    | lines => exact .inl (hblame (by simp))
  · rintro (hmany | hbrokenOver) hrsn
    · exact hmany
    · by_contra hfew
      refine hall ?_ hbrokenOver
      have hcount := h.count
      have hfits := h.fits
      split at hrsn
      · omega
      · cases hrsn
        have := h.ended rfl
        omega

omit h

/-- **What `truncateHead` reports.** -/
theorem truncateHead_reports : HeadReport content options (truncateHead content options) ∧
    (BlamesLines options (truncateHead content options) ↔
      options.lineLimit < (splitLinesForCounting content).length ∨ NotBrokenOver content options) := by
  unfold truncateHead
  rw [← TruncationOptions.lineLimit, ← TruncationOptions.byteLimit]
  dsimp only
  split
  · rename_i hwit
    refine ⟨⟨report_of_within hwit rfl, by simp⟩, ?_⟩
    exact iff_of_true (fun h => by cases h) (.inr (notBrokenOver_of_le hwit.2))
  · rename_i hover
    split
    · rename_i hfst
      -- The first line alone exceeds the limit.
      obtain ⟨line, rest, hlns⟩ : ∃ line rest, splitLinesForCounting content = line :: rest := by
        cases hlns : splitLinesForCounting content with
        | nil =>
          rw [hlns] at hfst
          simp at hfst
        | cons line rest => exact ⟨line, rest, rfl⟩
      rw [hlns, List.head?_cons, Option.getD_some] at hfst
      have hjoin : options.byteLimit < byteLength (joinLines newline [line]) := by
        rw [joinLines_singleton]
        exact hfst
      refine ⟨⟨⟨rfl, rfl, ?_, by simp, rfl, Nat.zero_le _, Nat.zero_le _⟩, fun _ => ?_⟩, ?_⟩
      · dsimp only
        simp only [true_iff]
        omega
      · refine ⟨Nat.zero_le _, rfl, fun _ => .inr ?_, fun _ => ⟨?_, ?_⟩⟩
        · rw [hlns]
          exact hjoin
        · dsimp only
          rw [hlns, length_cons]
          exact Nat.succ_pos _
        · rw [hlns]
          exact hjoin
      · refine iff_of_true (fun h => by cases h) (.inr (notBrokenOver_of_lines ?_))
        rw [hlns]
        exact Nat.lt_of_lt_of_le hjoin (byteLength_join_append [line] rest).1
    · obtain ⟨k, reason, hstop, heq⟩ := headLoop_start options.lineLimit options.byteLimit (splitLinesForCounting content)
      have hlen : ((splitLinesForCounting content).take k).length = k := by
        rw [length_take]
        exact Nat.min_eq_left hstop.count
      rw [heq]
      dsimp only
      rw [hlen]
      have hroom : k ≤ options.lineLimit := Nat.zero_add k ▸ hstop.room
      refine ⟨⟨⟨rfl, rfl, ?_, by simp, rfl, hroom, hstop.fits⟩,
        fun _ => ⟨hstop.count, rfl, hstop.maximal, hstop.byBytes⟩⟩, hstop.blames (fun hrsn => ?_) fun hk => ?_⟩
      · dsimp only
        simp only [true_iff]
        omega
      · refine notBrokenOver_of_lines (Nat.lt_of_lt_of_le (hstop.excess hrsn).2.2 ?_)
        conv_rhs => rw [← take_append_drop (k + 1) (splitLinesForCounting content)]
        exact (byteLength_join_append _ _).1
      · have hbyt := hstop.fits
        rw [hk, take_length] at hbyt
        exact brokenOver_of_lines hbyt (by omega)

/-- **What `truncateTail` reports.** -/
theorem truncateTail_reports : TailReport content options (truncateTail content options) ∧
    (BlamesLines options (truncateTail content options) ↔ BlamesRightLimit content options) := by
  unfold truncateTail
  rw [← TruncationOptions.lineLimit, ← TruncationOptions.byteLimit]
  dsimp only
  split
  · rename_i hwit
    refine ⟨⟨report_of_within hwit rfl, by simp, by simp⟩, ?_⟩
    refine iff_of_true (fun h => by cases h) (.inr ⟨notBrokenOver_of_le hwit.2, fun _ line hline => ?_⟩)
    obtain ⟨before, behind, hlns⟩ := append_of_mem hline
    have hle := byteLength_eq_join content
    have hbef := (byteLength_join_append before (line :: behind)).2
    have hbeh := (byteLength_join_append [line] behind).1
    rw [joinLines_singleton, singleton_append] at hbeh
    rw [hlns] at hle
    omega
  · rename_i hover
    rcases tailLoop_start options.lineLimit options.byteLimit (splitLinesForCounting content) with
      ⟨rest, line, hlns, hpos, hlong, heq⟩ | ⟨k, reason, hstop, hpos, heq⟩
    · obtain ⟨a, b, hspl, hcut, hle, hlea⟩ := truncateStringToBytesFromEnd_spec hlong
      rw [heq, hcut]
      dsimp only
      rw [joinLines_singleton, byteLength_wellFormed, length_singleton]
      have hjoin : options.byteLimit < byteLength (joinLines newline (splitLinesForCounting content)) := by
        have hle := (byteLength_join_append rest [line]).2
        rw [joinLines_singleton] at hle
        rw [hlns]
        omega
      refine ⟨⟨⟨rfl, rfl, ?_, by simp, ?_, hpos, hle⟩, by simp, fun _ => ?_⟩, ?_⟩
      · dsimp only
        simp only [true_iff]
        omega
      · rw [byteLength_wellFormed]
      · exact ⟨rest, line, a, b, hlns, hlong, hspl, rfl, utf8_wellFormed b, rfl, hlea⟩
      · rw [BlamesLines, BlamesRightLimit]
        dsimp only
        constructor
        · intro hblame
          by_cases hone : options.lineLimit = 1
          · exact .inl (hblame (by rw [if_pos ⟨by omega, hle⟩]))
          · exact .inr ⟨notBrokenOver_of_lines hjoin, fun h => absurd h hone⟩
        · rintro (hmany | ⟨-, hsho⟩) hrsn
          · exact hmany
          · by_cases hone : options.lineLimit = 1
            · have := hsho hone line (by rw [hlns]; simp)
              omega
            · rw [if_neg (fun h => hone (by omega))] at hrsn
              cases hrsn
    · have hlen : ((splitLinesForCounting content).drop ((splitLinesForCounting content).length - k)).length = k := by
        rw [length_drop]
        exact Nat.sub_sub_self hstop.count
      rw [heq]
      dsimp only
      rw [hlen]
      have hroom : k ≤ options.lineLimit := Nat.zero_add k ▸ hstop.room
      have hblames := @Stopped.blames content options _ _ _ _ hstop (fun hrsn => by
        refine notBrokenOver_of_lines (Nat.lt_of_lt_of_le (hstop.excess hrsn).2.2 ?_)
        conv_rhs => rw [← take_append_drop ((splitLinesForCounting content).length - (k + 1))
          (splitLinesForCounting content)]
        exact (byteLength_join_append _ _).2) fun hk => by
        have hbyt := hstop.fits
        rw [hk, Nat.sub_self, drop_zero] at hbyt
        exact brokenOver_of_lines hbyt (by omega)
      refine ⟨⟨⟨rfl, rfl, ?_, by simp, rfl, hroom, hstop.fits⟩,
        fun _ _ => ⟨hstop.count, rfl, hstop.maximal, hstop.byBytes⟩, by simp⟩, fun hblame => ?_,
        fun h => hblames.mpr (h.imp_right And.left)⟩
      · dsimp only
        simp only [true_iff]
        omega
      · cases reason with
        | lines => exact .inl (hblame (by simp))
        | bytes =>
          refine (hblames.mp hblame).imp_right fun hbrokenOver => ⟨hbrokenOver, fun hone => ?_⟩
          have := (hstop.excess rfl).2.1
          have := hpos rfl
          omega

/-- **Both truncations report what they have done exactly if the limit that is blamed is the right
one.** -/
theorem truncation_reports (content : Text) (options : TruncationOptions) :
    ((HeadReport content options (truncateHead content options) ∧ BlamesLines options (truncateHead content options)) ∧
      TailReport content options (truncateTail content options) ∧
        BlamesLines options (truncateTail content options)) ↔ BlamesRightLimit content options := by
  obtain ⟨hhead, hblam⟩ := @truncateHead_reports content options
  obtain ⟨htail, hbla⟩ := @truncateTail_reports content options
  constructor
  · rintro ⟨-, -, hblames⟩
    exact hbla.mp hblames
  · intro h
    refine ⟨⟨hhead, hblam.mpr (h.imp_right And.left)⟩, htail, hbla.mpr h⟩

end

/-- **The line limit is blamed although there is one line**: when its break exceeds the byte limit, and
when the line is cut under a limit of one line. -/
theorem blames_line_limit :
    (¬ BlamesLines ⟨some 10, some 3⟩ (truncateHead (Text.ofChars ['a', 'b', 'c', '\n']) ⟨some 10, some 3⟩) ∧
      ¬ BlamesLines ⟨some 10, some 3⟩ (truncateTail (Text.ofChars ['a', 'b', 'c', '\n']) ⟨some 10, some 3⟩)) ∧
    ¬ BlamesLines ⟨some 1, some 3⟩ (truncateTail (Text.ofChars ['a', 'b', 'c', 'd']) ⟨some 1, some 3⟩) :=
  ⟨⟨fun h => absurd (h (by decide +kernel)) (by decide +kernel),
    fun h => absurd (h (by decide +kernel)) (by decide +kernel)⟩,
    fun h => absurd (h (by decide +kernel)) (by decide +kernel)⟩

end Truncate
end EasyPi.CodingAgent
