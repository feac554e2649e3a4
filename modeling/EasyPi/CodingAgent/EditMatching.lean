/-
# Finding the text of an edit

`fuzzyFindText` looks for a text in a ladder of tiers: as it is, with quotes, dashes and white space
normalized, with runs of blank lines for each other, by lines whose white space is loose, and by
blocks of lines that are similar. Compatibility normalization is a parameter (`nfkc`). Similarities are
ratios; the units of a match are code units, but blank-line patterns match whole code points.
-/
import Mathlib.Data.List.DropRight
import Mathlib.Data.Multiset.UnionInter
import Mathlib.Data.Rat.Defs
import EasyPi.Lib.Occurrences
import EasyPi.CodingAgent.Replacements

namespace EasyPi.CodingAgent
namespace EditDiff

/-- `text.replace(/\r\n/g, "\n")`. -/
def replaceCrLf : Text → Text
  | [] => []
  | [c] => [c]
  | c :: d :: rest =>
    if c = cr ∧ d = lf then lf :: replaceCrLf rest else c :: replaceCrLf (d :: rest)

def normalizeToLF (text : Text) : Text := (replaceCrLf text).map fun c => if c = cr then lf else c

/-- `text.trimEnd()`. -/
def trimEnd (text : Text) : Text := text.rdropWhile isWhiteSpace

/-- `text.trim()`. -/
def trim (text : Text) : Text := trimEnd (text.dropWhile isWhiteSpace)

/-- Smart quotes, dashes and special spaces as their ASCII equivalents. -/
def toAscii (c : UInt16) : UInt16 :=
  if 0x2018 ≤ c ∧ c ≤ 0x201B then 0x27
  else if 0x201C ≤ c ∧ c ≤ 0x201F then 0x22
  else if 0x2010 ≤ c ∧ c ≤ 0x2015 ∨ c = 0x2212 then 0x2D
  else if c = 0xA0 ∨ 0x2002 ≤ c ∧ c ≤ 0x200A ∨ c = 0x202F ∨ c = 0x205F ∨ c = 0x3000 then 0x20
  else c

def normalizeForFuzzyMatch (nfkc : Text → Text) (text : Text) : Text :=
  (joinLines lf (((nfkc text).splitOn lf).map trimEnd)).map toAscii

/-- `[\t ]`. -/
def isBlank (c : UInt16) : Bool := c = 0x9 || c = 0x20

/-- `line.replace(/[\t ]+/g, " ")`, in a run of blanks or not. -/
def collapseBlanks : Bool → Text → Text
  | _, [] => []
  | inRun, c :: rest =>
    if isBlank c then
      if inRun then collapseBlanks true rest else 0x20 :: collapseBlanks true rest
    else c :: collapseBlanks false rest

def normalizeLineLoose (line : Text) : Text := trim (collapseBlanks false line)

def toNonBlankLooseLines (text : Text) : List Text := ((text.splitOn lf).map normalizeLineLoose).filter (· ≠ [])

def countStringOccurrences (content text : Text) : ℕ := (splitText content text).length - 1

/-- The offsets from `index` on; nothing when the bound on the turns of the loop is reached. -/
def offsetsFrom (content text : Text) : ℕ → Option ℕ → Option (List ℕ)
  | _, none => some []
  | 0, some _ => none
  | bound + 1, some index =>
    (offsetsFrom content text bound (indexOf? content text (index + 1))).map (index :: ·)

/-- `findAllOccurrenceOffsets`: nothing when the loop does not end. -/
def findAllOccurrenceOffsets (content text : Text) : Option (List ℕ) :=
  offsetsFrom content text (content.length + 2) (indexOf? content text)

/-- `offsetsToLines`, for sorted offsets: the loop counts the line breaks before each. -/
def offsetsToLines (content : Text) (offsets : List ℕ) (cap : ℕ := 5) : List ℕ :=
  (offsets.take cap).map fun offset => (content.take offset).count lf + 1

/-! ### Runs of blank lines -/

/-- `oldText.split(/\n(?:[\t ]*\n)*/)`: all lines but the blank ones between the first and the last. -/
def splitBlankRuns (oldText : Text) : List Text :=
  match oldText.splitOn lf with
  | [] => []
  | first :: rest =>
    first :: rest.dropLast.filter (fun line => !line.all isBlank) ++ rest.getLast?.toList

/-- A text as code points: pairs of surrogates, and other units. -/
def codePoints : Text → List Text
  | [] => []
  | [c] => [[c]]
  | c :: d :: rest =>
    if 0xD800 ≤ c ∧ c ≤ 0xDBFF ∧ 0xDC00 ≤ d ∧ d ≤ 0xDFFF then [c, d] :: codePoints rest
    else [c] :: codePoints (d :: rest)

/-- What is left after each number of lines that match `[\t ]*\n`, the most first. -/
def blankRests : ℕ → List Text → List (List Text)
  | 0, t => [t]
  | bound + 1, t =>
    match t.dropWhile fun c => c = [0x9] || c = [0x20] with
    | [] => [t]
    | c :: rest => if c = [lf] then blankRests bound rest ++ [t] else [t]

/-- What is left after a match of the pieces, joined by `\n(?:[\t ]*\n)*`. -/
def matchPieces : List (List Text) → List Text → Option (List Text)
  | [], t => some t
  | [piece], t => if piece <+: t then some (t.drop piece.length) else none
  | piece :: pieces, t =>
    if piece <+: t then
      match t.drop piece.length with
      | [] => none
      | c :: rest =>
        if c = [lf] then (blankRests rest.length rest).findSome? (matchPieces pieces) else none
    else none

/-- The matches, from an offset on, with `skip` code points of a match to pass over. -/
def matchesFrom (pieces : List (List Text)) : ℕ → ℕ → List Text → List (ℕ × ℕ)
  | _, _, [] => []
  | offset, skip + 1, c :: t => matchesFrom pieces (offset + c.length) skip t
  | offset, 0, c :: t =>
    match matchPieces pieces (c :: t) with
    | none => matchesFrom pieces (offset + c.length) 0 t
    | some rest =>
      let matched := (c :: t).take ((c :: t).length - rest.length)
      (offset, matched.flatten.length) :: matchesFrom pieces (offset + c.length) (matched.length - 1) t

/-- `findBlankLineTolerantMatches`: the offset and the length of each match. -/
def findBlankLineTolerantMatches (content oldText : Text) : List (ℕ × ℕ) :=
  if lf ∉ oldText then []
  else matchesFrom ((splitBlankRuns oldText).map codePoints) 0 0 (codePoints content)

structure LineMatch where
  index : ℕ
  length : ℕ
  startLine : ℕ
  nonBlankStart : ℕ
  nonBlankCount : ℕ

/-- The lines that are not blank. -/
def nonBlankLines (contentLines : List Text) : List ℕ :=
  (List.range contentLines.length).filter fun i => normalizeLineLoose (contentLines.getD i []) ≠ []

def toLineMatch (spans : List LineSpan) (contentLines : List Text) (nonBlank : List ℕ)
    (nonBlankStart nonBlankCount : ℕ) : LineMatch :=
  let firstLineIndex := nonBlank.getD nonBlankStart 0
  let lastLineIndex := nonBlank.getD (nonBlankStart + nonBlankCount - 1) 0
  let lastHasTerminator := brokenAtEnd lf (contentLines.getD lastLineIndex [])
  let start := (spans[firstLineIndex]?.map (·.start)).getD 0
  let stop := (spans[lastLineIndex]?.map (·.stop)).getD 0
  { index := start
    length := stop - (if lastHasTerminator then 1 else 0) - start
    startLine := firstLineIndex + 1
    nonBlankStart
    nonBlankCount }

def findLooseLineMatches (content oldText : Text) : List LineMatch :=
  let oldNonBlank := toNonBlankLooseLines oldText
  let contentLines := splitLinesWithEndings content
  let nonBlank := nonBlankLines contentLines
  let nbLoose := nonBlank.map fun i => normalizeLineLoose (contentLines.getD i [])
  if oldNonBlank = [] then []
  else
    ((List.range (nonBlank.length + 1 - oldNonBlank.length)).filter fun j =>
      slice nbLoose j (j + oldNonBlank.length) = oldNonBlank).map fun j =>
        toLineMatch (getLineSpans content) contentLines nonBlank j oldNonBlank.length

/-! ### Similar blocks -/

/-- `bigramCounts`: the grams, as often as they occur. -/
def bigramCounts (text : Text) : List (UInt16 × UInt16) := text.zip text.tail

/-- The grams that are available, each as often as it is. -/
def overlapOf (available : List (UInt16 × UInt16)) : List (UInt16 × UInt16) → ℕ
  | [] => 0
  | gram :: grams =>
    if gram ∈ available then overlapOf (available.erase gram) grams + 1 else overlapOf available grams

def bigramSimilarity (a b : Text) : ℚ :=
  if a = b then 1
  else if a.length < 2 ∨ b.length < 2 then 0
  else 2 * overlapOf (bigramCounts a) (bigramCounts b) / (a.length - 1 + (b.length - 1))

theorem overlapOf_eq (grams : List (UInt16 × UInt16)) : ∀ available : List (UInt16 × UInt16),
    overlapOf available grams = ((grams : Multiset (UInt16 × UInt16)) ∩ available).card := by
  induction grams with
  | nil => simp [overlapOf]
  | cons gram grams ih =>
    intro available
    rw [overlapOf, ← Multiset.cons_coe]
    by_cases h : gram ∈ available
    · rw [if_pos h, ih, Multiset.cons_inter_of_pos _ (Multiset.mem_coe.mpr h), Multiset.card_cons, Multiset.coe_erase,
        lawful_beq_subsingleton instBEqProd instBEqOfDecidableEq]
    · rw [if_neg h, ih, Multiset.cons_inter_of_neg _ (mt Multiset.mem_coe.mp h)]

/-- **Similarity is symmetric**: what the second text finds in the first is what they have in common. -/
theorem bigramSimilarity_comm (a b : Text) : bigramSimilarity a b = bigramSimilarity b a ∧
    overlapOf (bigramCounts a) (bigramCounts b) =
      ((bigramCounts a : Multiset (UInt16 × UInt16)) ∩ bigramCounts b).card := by
  refine ⟨?_, by rw [overlapOf_eq, Multiset.inter_comm]⟩
  have hcommon : overlapOf (bigramCounts a) (bigramCounts b) = overlapOf (bigramCounts b) (bigramCounts a) := by
    rw [overlapOf_eq, overlapOf_eq, Multiset.inter_comm]
  unfold bigramSimilarity
  by_cases h : a = b
  · rw [h]
  rw [if_neg h, if_neg (Ne.symm h)]
  by_cases hlen : a.length < 2 ∨ b.length < 2
  · rw [if_pos hlen, if_pos hlen.symm]
  · rw [if_neg hlen, if_neg (mt Or.symm hlen), hcommon, add_comm ((a.length : ℚ) - 1)]

/-- The cells of a row after `left`, from those of the row before. -/
def levenshteinCells (x : UInt16) : ℕ → List ℕ → Text → List ℕ
  | left, diagonal :: up :: previous, y :: b =>
    let cell := min (min (up + 1) (left + 1)) (diagonal + if x = y then 0 else 1)
    cell :: levenshteinCells x cell (up :: previous) b
  | _, _, _ => []

def levenshteinDistance (a b : Text) : ℕ :=
  let rows := (a.zipIdx 1).foldl (fun previous (x, i) => i :: levenshteinCells x i previous b) (List.range (b.length + 1))
  rows.getLast?.getD 0

/-- The distance by its recurrence, of texts that are given from their ends. -/
def distanceFromEnds : Text → Text → ℕ
  | [], b => b.length
  | x :: a, [] => a.length + 1
  | x :: a, y :: b => min (min (distanceFromEnds a (y :: b) + 1) (distanceFromEnds (x :: a) b + 1))
      (distanceFromEnds a b + if x = y then 0 else 1)

/-- The distances to a text with each beginning of `b` behind it. -/
def distanceRow (p q b : Text) : List ℕ := b.inits.map fun r => distanceFromEnds p (r.reverse ++ q)

theorem distanceRow_cons (p q : Text) (y : UInt16) (b : Text) :
    distanceRow p q (y :: b) = distanceFromEnds p q :: distanceRow p (y :: q) b := by
  unfold distanceRow
  simp [Function.comp_def]

theorem distanceRow_head (p q b : Text) : ∃ row, distanceRow p q b = distanceFromEnds p q :: row := by
  cases b with
  | nil => exact ⟨[], rfl⟩
  | cons y b => exact ⟨_, distanceRow_cons p q y b⟩

theorem levenshteinCells_row (x : UInt16) (p q b : Text) :
    distanceFromEnds (x :: p) q :: levenshteinCells x (distanceFromEnds (x :: p) q) (distanceRow p q b) b =
      distanceRow (x :: p) q b := by
  induction b generalizing q with
  | nil => simp [distanceRow, levenshteinCells]
  | cons y b ih =>
    obtain ⟨row, hrow⟩ := distanceRow_head p (y :: q) b
    have hcell := ih (y :: q)
    rw [hrow, distanceFromEnds] at hcell
    rw [distanceRow_cons, distanceRow_cons, hrow, levenshteinCells, hcell]

/-- **The table computes the distance.** Each row has all that the next one needs. -/
theorem levenshteinDistance_eq (a b : Text) : levenshteinDistance a b = distanceFromEnds a.reverse b.reverse := by
  have hrows : ∀ (a p : Text),
      (a.zipIdx (p.length + 1)).foldl (fun previous (x, i) => i :: levenshteinCells x i previous b) (distanceRow p [] b) =
        distanceRow (a.reverse ++ p) [] b := by
    intro a
    induction a with
    | nil => exact fun p => rfl
    | cons x a ih =>
      intro p
      have hfirst : distanceFromEnds (x :: p) [] = p.length + 1 := by rw [distanceFromEnds]
      have hrow := levenshteinCells_row x p [] b
      rw [hfirst] at hrow
      rw [List.zipIdx_cons, List.foldl_cons, List.reverse_cons, List.append_assoc, List.singleton_append, ← ih, ← hrow]
      rfl
  have hstart : List.range (b.length + 1) = distanceRow [] [] b := by
    apply List.ext_getElem
    · simp [distanceRow]
    · intro i hi _
      rw [List.length_range, Nat.lt_succ_iff] at hi
      simp [distanceRow, distanceFromEnds, hi]
  have htable : levenshteinDistance a b = (distanceRow (a.reverse ++ []) [] b).getLast?.getD 0 := by
    rw [← hrows a [], ← hstart]
    rfl
  rw [htable, distanceRow, List.getLast?_eq_getElem?]
  simp

def levenshteinMaxCells : ℕ := 2000000

def levenshteinSimilarity (a b : Text) : ℚ :=
  if a = b then 1
  else if a.length * b.length > levenshteinMaxCells then 0
  else 1 - levenshteinDistance a b / max a.length b.length

def similarBlockMinNonBlankLines : ℕ := 3

def similarBlockMaxNonBlankLines : ℕ := 200

def similarBlockThreshold : ℚ := 4 / 5

def similarSingleLineThreshold : ℚ := 9 / 10

structure Accepted extends LineMatch where
  similarity : ℚ

/-- The blocks of one line that are similar to it. -/
def acceptedLines (toMatch : ℕ → ℕ → LineMatch) (nbLoose : List Text) (target : Text) : List Accepted :=
  (nbLoose.zipIdx.filter fun (line, _) =>
    similarSingleLineThreshold ≤ bigramSimilarity target line).map fun (line, j) =>
      { toMatch j 1 with similarity := bigramSimilarity target line }

/-- The blocks of `count` lines with the same first and last line that are similar. -/
def acceptedBlocks (toMatch : ℕ → ℕ → LineMatch) (nbLoose oldNonBlank : List Text) (count : ℕ) : List Accepted :=
  if count < 2 ∨ nbLoose.length < count then []
  else
    (List.range (nbLoose.length + 1 - count)).filterMap fun j =>
      let block := slice nbLoose j (j + count)
      let similarity := levenshteinSimilarity (joinLines lf oldNonBlank) (joinLines lf block)
      if block.head? = oldNonBlank.head? ∧ block.getLast? = oldNonBlank.getLast? ∧
          similarBlockThreshold ≤ similarity then
        some { toMatch j count with similarity }
      else none

/-- The blocks that are similar to the lines of an old text. -/
def acceptedMatches (toMatch : ℕ → ℕ → LineMatch) (nbLoose oldNonBlank : List Text) : List Accepted :=
  match oldNonBlank with
  | [target] => acceptedLines toMatch nbLoose target
  | _ =>
    if oldNonBlank.length < similarBlockMinNonBlankLines then []
    else
      [oldNonBlank.length, oldNonBlank.length - 1, oldNonBlank.length + 1].flatMap
        (acceptedBlocks toMatch nbLoose oldNonBlank)

/-- A block joins the last cluster if it starts before the end of one of its blocks. -/
def addToClusters (clusters : List (List Accepted)) (candidate : Accepted) : List (List Accepted) :=
  match clusters.getLast? with
  | none => [[candidate]]
  | some current =>
    if current.any fun c => candidate.nonBlankStart < c.nonBlankStart + c.nonBlankCount then
      clusters.dropLast ++ [current ++ [candidate]]
    else clusters ++ [[candidate]]

inductive SimilarBlockResult where
  | none
  | match (best : LineMatch)
  | ambiguous (startLines : List ℕ)

def findSimilarBlockMatch (content oldText : Text) : SimilarBlockResult :=
  let oldNonBlank := toNonBlankLooseLines oldText
  let contentLines := splitLinesWithEndings content
  let nonBlank := nonBlankLines contentLines
  let nbLoose := nonBlank.map fun i => normalizeLineLoose (contentLines.getD i [])
  let accepted :=
    if oldNonBlank = [] ∨ similarBlockMaxNonBlankLines < oldNonBlank.length then []
    else acceptedMatches (toLineMatch (getLineSpans content) contentLines nonBlank) nbLoose oldNonBlank
  let sorted := accepted.mergeSort fun a b => a.nonBlankStart ≤ b.nonBlankStart
  match sorted.foldl addToClusters [] with
  | [] => .none
  | [[]] => .none
  | [first :: rest] =>
    .match (rest.foldl (fun a b => if a.similarity < b.similarity then b else a) first).toLineMatch
  | clusters => .ambiguous (clusters.filterMap fun cluster => cluster.head?.map (·.startLine))

/-! ### The ladder -/

inductive EditMatchTier where
  | exact
  | normalized
  | blankLines
  | looseLines
  | similarBlock
  deriving DecidableEq

/-- The fields of a `FuzzyMatchResult` that is found. -/
structure EditMatch where
  index : ℕ
  matchLength : ℕ
  contentForReplacement : Text
  matchTier : EditMatchTier
  occurrenceCount : ℕ
  occurrenceLines : List ℕ

inductive FuzzyMatchResult where
  | found (m : EditMatch)
  | notFound (ambiguousLines : List ℕ)

def FuzzyMatchResult.usedFuzzyMatch : FuzzyMatchResult → Bool
  | .found m => m.matchTier ≠ .exact
  | .notFound _ => false

def textMatch (matchTier : EditMatchTier) (content text : Text) (index : ℕ) : Option FuzzyMatchResult := do
  let offsets ← findAllOccurrenceOffsets content text
  return .found {
    index
    matchLength := text.length
    contentForReplacement := content
    matchTier
    occurrenceCount := countStringOccurrences content text
    occurrenceLines := offsetsToLines content offsets }

/-- The tiers below those that look for a text. -/
def lineMatch (fuzzyContent fuzzyOldText : Text) : FuzzyMatchResult :=
  match findBlankLineTolerantMatches fuzzyContent fuzzyOldText, findLooseLineMatches fuzzyContent fuzzyOldText with
  | (index, matchLength) :: rest, _ =>
    .found {
      index
      matchLength
      contentForReplacement := fuzzyContent
      matchTier := .blankLines
      occurrenceCount := rest.length + 1
      occurrenceLines := offsetsToLines fuzzyContent (index :: rest.map Prod.fst) }
  | [], first :: rest =>
    .found {
      index := first.index
      matchLength := first.length
      contentForReplacement := fuzzyContent
      matchTier := .looseLines
      occurrenceCount := rest.length + 1
      occurrenceLines := (first :: rest).map (·.startLine) }
  | [], [] =>
    match findSimilarBlockMatch fuzzyContent fuzzyOldText with
    | .match best =>
      .found {
        index := best.index
        matchLength := best.length
        contentForReplacement := fuzzyContent
        matchTier := .similarBlock
        occurrenceCount := 1
        occurrenceLines := [best.startLine] }
    | .ambiguous startLines => .notFound startLines
    | .none => .notFound []

/-- `fuzzyFindText`: nothing when it does not return. -/
def fuzzyFindText (nfkc : Text → Text) (content oldText : Text) : Option FuzzyMatchResult :=
  match indexOf? content oldText with
  | some index => textMatch .exact content oldText index
  | none =>
    let fuzzyContent := normalizeForFuzzyMatch nfkc content
    let fuzzyOldText := normalizeForFuzzyMatch nfkc oldText
    match indexOf? fuzzyContent fuzzyOldText with
    | some index => textMatch .normalized fuzzyContent fuzzyOldText index
    | none => some (lineMatch fuzzyContent fuzzyOldText)

end EditDiff
end EasyPi.CodingAgent
