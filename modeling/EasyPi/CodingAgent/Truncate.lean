/-
# Truncation of tool output

`truncateHead` and `truncateTail` (`packages/coding-agent/src/core/tools/truncate.ts`), with the
loops that collect whole lines from the front and from the back. Limits are natural numbers.
-/
import EasyPi.Lib.TextLines
import EasyPi.Lib.Utf8

namespace EasyPi.CodingAgent

open List
namespace Truncate

inductive TruncatedBy where
  | lines
  | bytes
  deriving DecidableEq

structure TruncationResult where
  content : Text
  truncated : Bool
  truncatedBy : Option TruncatedBy
  totalLines : ℕ
  totalBytes : ℕ
  outputLines : ℕ
  outputBytes : ℕ
  lastLinePartial : Bool
  firstLineExceedsLimit : Bool
  maxLines : ℕ
  maxBytes : ℕ
  deriving DecidableEq

structure TruncationOptions where
  maxLines : Option ℕ := none
  maxBytes : Option ℕ := none

def defaultMaxLines : ℕ := 2000

def defaultMaxBytes : ℕ := 50 * 1024

def newline : CodePoint := .char '\n'

def splitLinesForCounting (content : Text) : List Text := linesOf newline content

/-- The loop of `truncateHead`: the lines collected, and their bytes. -/
def headLoop (maxLines maxBytes : ℕ) : List Text → List Text → ℕ → List Text × ℕ × TruncatedBy
  | [], output, count => (output, count, .lines)
  | line :: lines, output, count =>
    if output.length < maxLines then
      let lineBytes := byteLength line + (if output.length > 0 then 1 else 0)
      if count + lineBytes > maxBytes then (output, count, .bytes)
      else headLoop maxLines maxBytes lines (output ++ [line]) (count + lineBytes)
    else (output, count, .lines)

def truncateHead (content : Text) (options : TruncationOptions := {}) : TruncationResult :=
  let maxLines := options.maxLines.getD defaultMaxLines
  let maxBytes := options.maxBytes.getD defaultMaxBytes
  let totalBytes := byteLength content
  let lines := splitLinesForCounting content
  let totalLines := lines.length
  if totalLines ≤ maxLines ∧ totalBytes ≤ maxBytes then
    { content := content, truncated := false, truncatedBy := none, totalLines := totalLines
      totalBytes := totalBytes, outputLines := totalLines, outputBytes := totalBytes
      lastLinePartial := false, firstLineExceedsLimit := false, maxLines := maxLines
      maxBytes := maxBytes }
  else
    let firstLineBytes := byteLength (lines.head?.getD [])
    if firstLineBytes > maxBytes then
      { content := [], truncated := true, truncatedBy := some .bytes, totalLines := totalLines
        totalBytes := totalBytes, outputLines := 0, outputBytes := 0, lastLinePartial := false
        firstLineExceedsLimit := true, maxLines := maxLines, maxBytes := maxBytes }
    else
      let (outputLines, count, reason) := headLoop maxLines maxBytes lines [] 0
      let truncatedBy := if outputLines.length ≥ maxLines ∧ count ≤ maxBytes then .lines else reason
      let outputContent := joinLines newline outputLines
      { content := outputContent, truncated := true, truncatedBy := some truncatedBy
        totalLines := totalLines, totalBytes := totalBytes, outputLines := outputLines.length
        outputBytes := byteLength outputContent, lastLinePartial := false
        firstLineExceedsLimit := false, maxLines := maxLines, maxBytes := maxBytes }

def truncateStringToBytesFromEnd (str : Text) (maxBytes : ℕ) : Text :=
  let buf := utf8 str
  if buf.length ≤ maxBytes then str
  else textOfUtf8 (buf.drop (nextBoundary buf (buf.length - maxBytes)))

/-- The loop of `truncateTail`, over the lines from the last one on: the lines collected, their
bytes, and whether the only one is cut. -/
def tailLoop (maxLines maxBytes : ℕ) :
    List Text → List Text → ℕ → List Text × ℕ × TruncatedBy × Bool
  | [], output, count => (output, count, .lines, false)
  | line :: lines, output, count =>
    if output.length < maxLines then
      let lineBytes := byteLength line + (if output.length > 0 then 1 else 0)
      if count + lineBytes > maxBytes then
        if output.length = 0 then
          let truncatedLine := truncateStringToBytesFromEnd line maxBytes
          (truncatedLine :: output, byteLength truncatedLine, .bytes, true)
        else (output, count, .bytes, false)
      else tailLoop maxLines maxBytes lines (line :: output) (count + lineBytes)
    else (output, count, .lines, false)

def truncateTail (content : Text) (options : TruncationOptions := {}) : TruncationResult :=
  let maxLines := options.maxLines.getD defaultMaxLines
  let maxBytes := options.maxBytes.getD defaultMaxBytes
  let totalBytes := byteLength content
  let lines := splitLinesForCounting content
  let totalLines := lines.length
  if totalLines ≤ maxLines ∧ totalBytes ≤ maxBytes then
    { content := content, truncated := false, truncatedBy := none, totalLines := totalLines
      totalBytes := totalBytes, outputLines := totalLines, outputBytes := totalBytes
      lastLinePartial := false, firstLineExceedsLimit := false, maxLines := maxLines
      maxBytes := maxBytes }
  else
    let (outputLines, count, reason, lastLinePartial) := tailLoop maxLines maxBytes lines.reverse [] 0
    let truncatedBy := if outputLines.length ≥ maxLines ∧ count ≤ maxBytes then .lines else reason
    let outputContent := joinLines newline outputLines
    { content := outputContent, truncated := true, truncatedBy := some truncatedBy
      totalLines := totalLines, totalBytes := totalBytes, outputLines := outputLines.length
      outputBytes := byteLength outputContent, lastLinePartial := lastLinePartial
      firstLineExceedsLimit := false, maxLines := maxLines, maxBytes := maxBytes }

theorem byteLength_newline : byteLength [newline] = 1 := by decide +kernel

theorem byteLength_cons_newline (t : Text) : byteLength (newline :: t) = 1 + byteLength t := by
  rw [← singleton_append, byteLength_append, byteLength_newline]

theorem byteLength_join_concat (output : List Text) (line : Text) : byteLength (joinLines newline (output ++ [line])) =
      byteLength (joinLines newline output) + (byteLength line + if output.length > 0 then 1 else 0) := by
  by_cases h : output = []
  · subst h
    simp
  · rw [joinLines_append newline h (cons_ne_nil _ _), joinLines_singleton, byteLength_append,
      byteLength_cons_newline, if_pos (length_pos_iff.mpr h), Nat.add_comm 1]

theorem byteLength_join_cons (output : List Text) (line : Text) : byteLength (joinLines newline (line :: output)) =
      byteLength (joinLines newline output) + (byteLength line + if output.length > 0 then 1 else 0) := by
  by_cases h : output = []
  · subst h
    simp
  · rw [joinLines_cons newline line h, byteLength_append, byteLength_cons_newline, if_pos (length_pos_iff.mpr h)]
    omega

theorem byteLength_join_append (a b : List Text) :
    byteLength (joinLines newline a) ≤ byteLength (joinLines newline (a ++ b)) ∧
      byteLength (joinLines newline b) ≤ byteLength (joinLines newline (a ++ b)) := by
  by_cases ha : a = []
  · subst ha
    rw [nil_append, joinLines_nil, byteLength_nil]
    omega
  · by_cases hb : b = []
    · subst hb
      rw [append_nil, joinLines_nil, byteLength_nil]
      omega
    · rw [joinLines_append newline ha hb, byteLength_append, byteLength_cons_newline]
      omega

theorem byteLength_eq_join (content : Text) : byteLength content =
    byteLength (joinLines newline (splitLinesForCounting content)) + if brokenAtEnd newline content then 1 else 0 := by
  conv_lhs => rw [joinLines_linesOf newline content, byteLength_append]
  rw [splitLinesForCounting]
  split
  · rw [byteLength_newline]
  · rw [byteLength_nil]

/-! ### The loops -/

section Loops
variable {maxLines maxBytes : ℕ}

/-- Where a loop over `n` lines stops: with `k` of them, after `start` others; `bytes j` are the bytes with `j` of them. -/
structure Stopped (maxLines maxBytes n start : ℕ) (bytes : ℕ → ℕ) (k : ℕ) (reason : TruncatedBy) : Prop where
  count : k ≤ n
  room : start + k ≤ maxLines
  fits : bytes k ≤ maxBytes
  excess : reason = .bytes → k < n ∧ start + k < maxLines ∧ maxBytes < bytes (k + 1)
  ended : reason = .lines → k = n ∨ start + k = maxLines

theorem Stopped.step {n start k : ℕ} {bytes bytes' : ℕ → ℕ} {reason : TruncatedBy}
    (h : Stopped maxLines maxBytes n (start + 1) bytes' k reason) (hbytes : ∀ j, bytes' j = bytes (j + 1)) :
    Stopped maxLines maxBytes (n + 1) start bytes (k + 1) reason := by
  obtain ⟨hcount, hroom, hfits, hover, hended⟩ := h
  rw [hbytes] at hfits hover
  refine ⟨Nat.succ_le_succ hcount, by omega, hfits, fun h => ?_, fun h => ?_⟩
  · obtain ⟨hlt, hlt', hbyt⟩ := hover h
    exact ⟨Nat.succ_lt_succ hlt, by omega, hbyt⟩
  · have := hended h
    omega

theorem headLoop_eq {lines output : List Text} {count : ℕ} (hlns : output.length ≤ maxLines)
    (hcnt : count = byteLength (joinLines newline output)) (hbyt : count ≤ maxBytes) :
    ∃ k reason, Stopped maxLines maxBytes lines.length output.length
        (fun j => byteLength (joinLines newline (output ++ lines.take j))) k reason ∧
      headLoop maxLines maxBytes lines output count =
        (output ++ lines.take k, byteLength (joinLines newline (output ++ lines.take k)), reason) := by
  have hstay : ∀ lines : List Text, output ++ lines.take 0 = output := fun lines => by rw [take_zero, append_nil]
  have hfits : byteLength (joinLines newline (output ++ lines.take 0)) ≤ maxBytes := by rwa [hstay, ← hcnt]
  induction lines generalizing output count with
  | nil =>
    refine ⟨0, .lines, ⟨Nat.le_refl _, hlns, hfits, by simp, fun _ => .inl rfl⟩, ?_⟩
    rw [headLoop, hstay, hcnt]
  | cons line lines ih =>
    rw [headLoop]
    split
    · rename_i hroom
      have hnext := byteLength_join_concat output line
      dsimp only
      generalize (byteLength line + if output.length > 0 then 1 else 0) = lineBytes at hnext ⊢
      split
      · rename_i hover
        refine ⟨0, .bytes, ⟨Nat.zero_le _, hlns, hfits, fun _ => ⟨Nat.succ_pos _, hroom, ?_⟩, by simp⟩, by rw [hstay, hcnt]⟩
        rw [take_succ_cons, take_zero, hnext, ← hcnt]
        exact hover
      · rename_i hle
        have htake : ∀ j, output ++ [line] ++ lines.take j = output ++ (line :: lines).take (j + 1) :=
          fun j => by rw [take_succ_cons, append_assoc, singleton_append]
        have hle' := Nat.le_of_not_lt hle
        obtain ⟨k, reason, hstop, heq⟩ := @ih (output ++ [line]) (count + lineBytes)
          (by rw [length_append, length_singleton]; exact hroom) (by rw [hnext, hcnt]) hle'
          (fun lines => by rw [take_zero, append_nil]) (by rw [take_zero, append_nil, hnext, ← hcnt]; exact hle')
        rw [length_append, length_singleton] at hstop
        rw [htake] at heq
        exact ⟨k + 1, reason, hstop.step fun j => by rw [htake], heq⟩
    · rename_i hfull
      refine ⟨0, .lines, ⟨Nat.zero_le _, hlns, hfits, by simp, fun _ => .inr (by omega)⟩, ?_⟩
      rw [hstay, hcnt]

/-- What the loop of `truncateTail` puts before the output, unless it cuts the only line. -/
theorem tailLoop_eq {lines output : List Text} {count : ℕ} (hlns : output.length ≤ maxLines)
    (hcnt : count = byteLength (joinLines newline output)) (hbyt : count ≤ maxBytes) :
    (∃ line rest, output = [] ∧ lines = line :: rest ∧ 0 < maxLines ∧ maxBytes < byteLength line ∧
      tailLoop maxLines maxBytes lines output count = ([truncateStringToBytesFromEnd line maxBytes],
          byteLength (truncateStringToBytesFromEnd line maxBytes), .bytes, true)) ∨
    ∃ k reason, Stopped maxLines maxBytes lines.length output.length
        (fun j => byteLength (joinLines newline ((lines.take j).reverse ++ output))) k reason ∧
      (reason = .bytes → 0 < output.length + k) ∧ tailLoop maxLines maxBytes lines output count =
        ((lines.take k).reverse ++ output, byteLength (joinLines newline ((lines.take k).reverse ++ output)), reason, false) := by
  have hfits : byteLength (joinLines newline ((lines.take 0).reverse ++ output)) ≤ maxBytes := by
    rwa [take_zero, reverse_nil, nil_append, ← hcnt]
  induction lines generalizing output count with
  | nil =>
    refine .inr ⟨0, .lines, ⟨Nat.le_refl _, hlns, hfits, by simp, fun _ => .inl rfl⟩, by simp, ?_⟩
    rw [tailLoop, hcnt]
    rfl
  | cons line lines ih =>
    rw [tailLoop]
    split
    · rename_i hroom
      have hnext := byteLength_join_cons output line
      dsimp only
      generalize hline : (byteLength line + if output.length > 0 then 1 else 0) = lineBytes at hnext ⊢
      split
      · rename_i hover
        split
        · rename_i hemp
          obtain rfl := length_eq_zero_iff.mp hemp
          refine .inl ⟨line, lines, rfl, rfl, by omega, ?_, rfl⟩
          rw [hcnt, joinLines_nil, byteLength_nil, ← hline] at hover
          simpa using hover
        · rename_i hsome
          refine .inr ⟨0, .bytes, ⟨Nat.zero_le _, hlns, hfits, fun _ => ⟨Nat.succ_pos _, hroom, ?_⟩, by simp⟩,
            fun _ => Nat.pos_of_ne_zero hsome, by rw [hcnt]; rfl⟩
          rw [take_succ_cons, take_zero, reverse_singleton, singleton_append, hnext, ← hcnt]
          exact hover
      · rename_i hle
        have htake : ∀ j, (lines.take j).reverse ++ (line :: output) =
            ((line :: lines).take (j + 1)).reverse ++ output := fun j => by
          rw [take_succ_cons, reverse_cons, append_assoc, singleton_append]
        have hle' := Nat.le_of_not_lt hle
        rcases @ih (line :: output) (count + lineBytes) hroom (by rw [hnext, hcnt]) hle'
          (by rw [take_zero, reverse_nil, nil_append, hnext, ← hcnt]; exact hle') with
          ⟨_, _, hnil, -⟩ | ⟨k, reason, hstop, hpos, heq⟩
        · cases hnil
        · rw [htake] at heq
          exact .inr ⟨k + 1, reason, hstop.step fun j => by rw [htake], fun _ => by omega, heq⟩
    · rename_i hfull
      exact .inr ⟨0, .lines, ⟨Nat.zero_le _, hlns, hfits, by simp, fun _ => .inr (by omega)⟩, by simp, by rw [hcnt]; rfl⟩

theorem headLoop_start (maxLines maxBytes : ℕ) (lines : List Text) :
    ∃ k reason, Stopped maxLines maxBytes lines.length 0 (fun j => byteLength (joinLines newline (lines.take j))) k reason ∧
      headLoop maxLines maxBytes lines [] 0 = (lines.take k, byteLength (joinLines newline (lines.take k)), reason) :=
  @headLoop_eq maxLines maxBytes lines [] 0 (Nat.zero_le _) rfl (Nat.zero_le _)

theorem reverse_take_reverse (lines : List Text) (k : ℕ) :
    (lines.reverse.take k).reverse = lines.drop (lines.length - k) := by
  rw [take_reverse, reverse_reverse]

/-- The lines that `truncateTail` collects: as many as the limits allow, unless it cuts the last one. -/
theorem tailLoop_start (maxLines maxBytes : ℕ) (lines : List Text) :
    (∃ rest line, lines = rest ++ [line] ∧ 0 < maxLines ∧ maxBytes < byteLength line ∧
      tailLoop maxLines maxBytes lines.reverse [] 0 = ([truncateStringToBytesFromEnd line maxBytes],
        byteLength (truncateStringToBytesFromEnd line maxBytes), .bytes, true)) ∨
    ∃ k reason, Stopped maxLines maxBytes lines.length 0
        (fun j => byteLength (joinLines newline (lines.drop (lines.length - j)))) k reason ∧ (reason = .bytes → 0 < k) ∧
      tailLoop maxLines maxBytes lines.reverse [] 0 = (lines.drop (lines.length - k),
        byteLength (joinLines newline (lines.drop (lines.length - k))), reason, false) := by
  rcases @tailLoop_eq maxLines maxBytes lines.reverse [] 0 (Nat.zero_le _) rfl (Nat.zero_le _) with
    ⟨line, rest, -, hrev, hpos, hlong, heq⟩ | ⟨k, reason, hstop, hpos, heq⟩
  · refine .inl ⟨rest.reverse, line, ?_, hpos, hlong, heq⟩
    rw [← reverse_cons, ← hrev, reverse_reverse]
  · simp only [append_nil, reverse_take_reverse, length_reverse, length_nil, Nat.zero_add] at hstop hpos heq
    exact .inr ⟨k, reason, hstop, hpos, heq⟩

end Loops

/-- **A line is cut at the first boundary** that leaves no more than the limit. -/
theorem truncateStringToBytesFromEnd_spec {str : Text} {maxBytes : ℕ} (h : maxBytes < byteLength str) :
    ∃ a b, str = a ++ b ∧ truncateStringToBytesFromEnd str maxBytes = Text.wellFormed b ∧
      byteLength b ≤ maxBytes ∧ ∀ p a', a = a' ++ [p] → maxBytes < byteLength (p :: b) := by
  obtain ⟨a, b, rfl, hbou, hle, hlea⟩ := nextBoundary_utf8 (Nat.sub_le (byteLength str) maxBytes)
  have hcut : truncateStringToBytesFromEnd (a ++ b) maxBytes = Text.wellFormed b := by
    unfold truncateStringToBytesFromEnd
    rw [byteLength] at h hbou
    dsimp only
    rw [if_neg (Nat.not_le_of_lt h), hbou, utf8_append, byteLength, drop_left, textOfUtf8_utf8]
  rw [byteLength_append] at h hle hlea
  refine ⟨a, b, rfl, hcut, by omega, fun p a' heq => ?_⟩
  have hlt := hlea p a' heq
  rw [heq, byteLength_append, byteLength_cons, byteLength_nil] at h hlt
  rw [byteLength_cons]
  omega

end Truncate
end EasyPi.CodingAgent
