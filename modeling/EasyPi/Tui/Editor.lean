/-
# The editor

The document of `packages/tui/src/components/editor.ts` and the operations on it, for an editor without attachments:
typing, pastes, deletions, the kill ring, the history of prompts, moves of the cursor and undo. What only the display
reads is left out (scroll offset, preferred column, autocompletion). Vertical moves, pages and jumps go where
the layout says; here that place is an argument.
-/
import EasyPi.Lib.OrdMap
import EasyPi.Tui.WordNavigation

namespace EasyPi.Tui

open CodingAgent.EditDiff (normalizeToLF)

namespace Editor

/-! ### Texts -/

/-- `text.replace`, with a global expression that matches a text in one way: what stands for the match, and its length. -/
def replaceAll (matchAt : Text → Option (Text × ℕ)) : ℕ → Text → Text
  | _, [] => []
  | skip + 1, _ :: rest => replaceAll matchAt skip rest
  | 0, c :: rest =>
    match matchAt (c :: rest) with
    | some (replacement, length) => replacement ++ replaceAll matchAt (length - 1) rest
    | none => c :: replaceAll matchAt 0 rest

/-- `text.split("\n")`. -/
def splitLines (text : Text) : List Text := text.splitOn lf

def normalizeText (text : Text) : Text :=
  (normalizeToLF text).flatMap fun c => if c = tab then [space, space, space, space] else [c]

def decimal (n : ℤ) : Text := (toString n).toList.map fun c => c.val.toUInt16

def unitsOfString (s : String) : Text := s.toList.map fun c => c.val.toUInt16

/-- `/\x1b\[(\d+);5u/` at the start of a text: the control character for a letter. -/
def ctrlKeyAt (text : Text) : Option (Text × ℕ) :=
  let digits := (text.drop 2).takeWhile isDigit
  let behind := unitsOfString ";5u"
  if [esc, openBracket] <+: text ∧ digits ≠ [] ∧ behind <+: text.drop (2 + digits.length) then
    let cp := parseInt digits
    let length := 2 + digits.length + behind.length
    if 97 ≤ cp ∧ cp ≤ 122 then some ([(cp - 96).toUInt16], length)
    else if 65 ≤ cp ∧ cp ≤ 90 then some ([(cp - 64).toUInt16], length)
    else some (text.take length, length)
  else none

/-- `/\w/`. -/
def isWordUnit (c : UInt16) : Bool := isDigit c || (0x41 ≤ c && c ≤ 0x5A) || (0x61 ≤ c && c ≤ 0x7A) || c = underscore

def skillPrefix : Text := unitsOfString "/skill:"

/-- `\/skill:([^\s]+)` at the start of a text: the name. -/
def skillNameAt (text : Text) : Option Text :=
  let name := (text.drop skillPrefix.length).takeWhile fun c => !isWhiteSpace c
  if skillPrefix <+: text ∧ name ≠ [] then some name else none

/-- `encodeSkillMention`, which throws for names with the mark of mentions. -/
def encodeSkillMention (name : Text) : Option Text :=
  if name = [] ∨ ¬ name.all isNameUnit then none else some (mentionMark :: mentionMark :: (name ++ [mentionMark]))

/-- `encodeSkillInvocations`, behind the start of the text. -/
def encodeFrom : ℕ → Text → Option Text
  | _, [] => some []
  | skip + 1, _ :: rest => encodeFrom skip rest
  | 0, c :: rest =>
    match if isWhiteSpace c then skillNameAt rest else none with
    | some name => do
      let mention ← encodeSkillMention name
      let encoded ← encodeFrom (skillPrefix.length + name.length) rest
      some (c :: (mention ++ encoded))
    | none => (encodeFrom 0 rest).map (c :: ·)

def encodeSkillInvocations (text : Text) : Option Text :=
  match skillNameAt text with
  | some name => do
    let mention ← encodeSkillMention name
    let encoded ← encodeFrom (skillPrefix.length + name.length) text
    some (mention ++ encoded)
  | none => encodeFrom 0 text

/-- `KillRing.push`; the newest entry is the last. -/
def pushKill (ring : List Text) (text : Text) (prepended accumulate : Bool) : List Text :=
  if text = [] then ring
  else
    match ring.getLast? with
    | some last =>
      if accumulate then ring.dropLast ++ [if prepended then text ++ last else last ++ text] else ring ++ [text]
    | none => ring ++ [text]

def rotate (ring : List Text) : List Text :=
  match ring.getLast? with
  | some last => if ring.length > 1 then last :: ring.dropLast else ring
  | none => ring

/-! ### The state -/

/-- The text state and the marker registries. -/
structure EditorSnapshot where
  state : EditorState
  pastes : OrdMap ℤ Text
  pasteCounter : ℤ
  deriving DecidableEq

inductive Action where
  | kill | yank | typeWord
  deriving DecidableEq

end Editor

structure Editor where
  state : Editor.EditorState := ⟨[[]], 0, 0⟩
  pastes : OrdMap ℤ Text := ∅
  pasteCounter : ℤ := 0
  history : List Text := []
  historyIndex : ℤ := -1
  historyDraft : Option Editor.EditorSnapshot := none
  killRing : List Text := []
  lastAction : Option Editor.Action := none
  undoStack : List Editor.EditorSnapshot := []
  deriving DecidableEq

namespace Editor

def EditorState.line (s : EditorState) : Text := s.lines[s.cursorLine]?.getD []

def EditorState.before (s : EditorState) : Text := s.line.take s.cursorCol

def EditorState.after (s : EditorState) : Text := s.line.drop s.cursorCol

/-- `lines[cursorLine] = line`, with the cursor at a column. -/
def EditorState.setLine (s : EditorState) (line : Text) (col : ℕ) : EditorState :=
  { s with lines := s.lines.set s.cursorLine line, cursorCol := col }

/-- The line of the cursor is put behind the line above it. -/
def EditorState.mergeWithPrevious (s : EditorState) : EditorState :=
  let previousLine := s.lines[s.cursorLine - 1]?.getD []
  { lines := (s.lines.set (s.cursorLine - 1) (previousLine ++ s.line)).eraseIdx s.cursorLine
    cursorLine := s.cursorLine - 1
    cursorCol := previousLine.length }

/-- The line below the cursor is put behind the line of the cursor. -/
def EditorState.mergeWithNext (s : EditorState) : EditorState :=
  let nextLine := s.lines[s.cursorLine + 1]?.getD []
  { s with lines := (s.lines.set s.cursorLine (s.line ++ nextLine)).eraseIdx (s.cursorLine + 1) }

variable (u : Unicode) (e : Editor)

def snapshot : EditorSnapshot := ⟨e.state, e.pastes, e.pasteCounter⟩

def segment (mode : Mode) (text : Text) : List Segment := segmentWithMarkers u mode text e.pastes.keys []

def pushUndoSnapshot : Editor := { e with undoStack := e.undoStack ++ [e.snapshot] }

def exitHistoryBrowsing : Editor := { e with historyIndex := -1, historyDraft := none }

def undo : Editor :=
  let exited := e.exitHistoryBrowsing
  match exited.undoStack.getLast? with
  | none => exited
  | some last =>
    { exited with
      undoStack := exited.undoStack.dropLast
      state := last.state
      pastes := last.pastes
      pasteCounter := last.pasteCounter
      lastAction := none }

/-- `submitValue`, what it leaves. -/
def submitValue : Editor :=
  { e.exitHistoryBrowsing with
    state := ⟨[[]], 0, 0⟩, pastes := ∅, pasteCounter := 0, undoStack := [], lastAction := none }

/-! ### Insertions -/

def insertCharacter (char : Text) : Editor :=
  let exited := e.exitHistoryBrowsing
  let pushed := if isWhitespaceChar char ∨ exited.lastAction ≠ some .typeWord then exited.pushUndoSnapshot else exited
  { pushed with
    lastAction := some .typeWord
    state := e.state.setLine (e.state.before ++ char ++ e.state.after) (e.state.cursorCol + char.length) }

/-- The document with a text at the cursor, of `insertTextAtCursorInternal`. -/
def EditorState.insertLines (s : EditorState) (text : Text) : EditorState :=
  if text = [] then s
  else
    let normalized := normalizeText text
    let insertedLines := splitLines normalized
    if insertedLines.length = 1 then
      s.setLine (s.before ++ normalized ++ s.after) (s.cursorCol + normalized.length)
    else
      let lastLine := insertedLines.getLastD []
      { lines := s.lines.take s.cursorLine ++ (s.before ++ insertedLines.headD []) :: (insertedLines.drop 1).dropLast ++
          (lastLine ++ s.after) :: s.lines.drop (s.cursorLine + 1)
        cursorLine := s.cursorLine + (insertedLines.length - 1)
        cursorCol := lastLine.length }

def insertTextAtCursorInternal (text : Text) : Editor := { e with state := e.state.insertLines text }

def insertTextAtCursor (text : Text) : Editor :=
  if text = [] then e
  else
    { e.pushUndoSnapshot with lastAction := none }.exitHistoryBrowsing.insertTextAtCursorInternal text

/-- The text of a paste that is inserted, before it is replaced by a marker. -/
def pastedText (pasted : Text) : Text :=
  let cleanText := normalizeText (replaceAll ctrlKeyAt 0 pasted)
  let filteredText := cleanText.filter fun c => c = lf || 32 ≤ c
  let isPath := filteredText.head?.any fun c => c = 0x2F || c = 0x7E || c = 0x2E
  let followsWord := e.state.before.getLast?.any isWordUnit
  if isPath && followsWord then space :: filteredText else filteredText

def handlePaste (pasted : Text) : Editor :=
  let pushed := { e.exitHistoryBrowsing with lastAction := none }.pushUndoSnapshot
  let filteredText := e.pastedText pasted
  let pastedLines := splitLines filteredText
  if pastedLines.length > 10 ∨ filteredText.length > 1000 then
    let pasteId := e.pasteCounter + 1
    let marker :=
      if pastedLines.length > 10 then
        unitsOfString "[paste #" ++ decimal pasteId ++ unitsOfString " +" ++ decimal pastedLines.length ++
          unitsOfString " lines]"
      else
        unitsOfString "[paste #" ++ decimal pasteId ++ unitsOfString " " ++ decimal filteredText.length ++
          unitsOfString " chars]"
    { pushed with pasteCounter := pasteId, pastes := e.pastes.set pasteId filteredText }.insertTextAtCursorInternal marker
  else pushed.insertTextAtCursorInternal filteredText

def addNewLine : Editor :=
  let s := e.state
  { { e.exitHistoryBrowsing with lastAction := none }.pushUndoSnapshot with
    state :=
      { lines := s.lines.take s.cursorLine ++ s.before :: s.after :: s.lines.drop (s.cursorLine + 1)
        cursorLine := s.cursorLine + 1
        cursorCol := 0 } }

/-! ### Deletions -/

/-- `PASTE_MARKER_REGEX` at the start of a text, with an identifier above `targetId` counted down. A marker without
a suffix gets the text of `undefined`. -/
def renumberAt (targetId : ℤ) (text : Text) : Option (Text × ℕ) :=
  (pasteMarkerAt text).map fun (id, length) =>
    let digits := (text.drop pastePrefix.length).takeWhile isDigit
    let suffixGroup := slice text (pastePrefix.length + digits.length) (length - 1)
    if (id : ℤ) ≤ targetId then (text.take length, length)
    else (pastePrefix ++ decimal (id - 1) ++ (if suffixGroup = [] then unitsOfString "undefined" else suffixGroup) ++
      [closeBracket], length)

/-- The registry without a paste, with the identifiers above it counted down in ascending order. -/
def removePaste (pastes : OrdMap ℤ Text) (targetId : ℤ) : OrdMap ℤ Text :=
  let remaining := pastes.erase targetId
  let higherIds := (remaining.keys.filter fun id => targetId < id).insertionSort (· ≤ ·)
  higherIds.foldl (fun pastes id => (pastes.set (id - 1) ((pastes.get? id).getD [])).erase id) remaining

/-- The branch of `handleBackspace` for a grapheme before the cursor. -/
def deleteBefore : Editor :=
  let lastGrapheme := (e.segment u .grapheme e.state.before).getLast?
  let graphemeLength := (lastGrapheme.map fun seg => seg.segment.length).getD 1
  let renumbered :=
    match lastGrapheme.bind fun seg => if isPasteMarker seg.segment then pasteMarkerAt seg.segment else none with
    | some (targetId, _) =>
      { e with
        pastes := removePaste e.pastes targetId
        pasteCounter := e.pasteCounter - 1
        state := { e.state with lines := e.state.lines.map (replaceAll (renumberAt targetId) 0) } }
    | none => e
  let line := renumbered.state.line
  { renumbered with
    state := renumbered.state.setLine (line.take (e.state.cursorCol - graphemeLength) ++ line.drop e.state.cursorCol)
      (e.state.cursorCol - graphemeLength) }

def handleBackspace : Editor :=
  let exited := { e.exitHistoryBrowsing with lastAction := none }
  if e.state.cursorCol > 0 then exited.pushUndoSnapshot.deleteBefore u
  else if e.state.cursorLine > 0 then { exited.pushUndoSnapshot with state := e.state.mergeWithPrevious }
  else exited

def handleForwardDelete : Editor :=
  let exited := { e.exitHistoryBrowsing with lastAction := none }
  let s := e.state
  if s.cursorCol < s.line.length then
    let graphemeLength := ((e.segment u .grapheme s.after).head?.map fun seg => seg.segment.length).getD 1
    { exited.pushUndoSnapshot with
      state := s.setLine (s.before ++ s.line.drop (s.cursorCol + graphemeLength)) s.cursorCol }
  else if s.cursorLine + 1 < s.lines.length then { exited.pushUndoSnapshot with state := s.mergeWithNext }
  else exited

/-! ### Kills and yanks -/

def killInto (deletedText : Text) (prepended : Bool) (state : EditorState) : Editor :=
  { e.exitHistoryBrowsing.pushUndoSnapshot with
    killRing := pushKill e.killRing deletedText prepended (e.lastAction = some .kill)
    lastAction := some .kill
    state := state }

def deleteToStartOfLine : Editor :=
  let s := e.state
  if s.cursorCol > 0 then e.killInto s.before true (s.setLine s.after 0)
  else if s.cursorLine > 0 then e.killInto [lf] true s.mergeWithPrevious
  else e.exitHistoryBrowsing

def deleteToEndOfLine : Editor :=
  let s := e.state
  if s.cursorCol < s.line.length then e.killInto s.after false (s.setLine s.before s.cursorCol)
  else if s.cursorLine + 1 < s.lines.length then e.killInto [lf] false s.mergeWithNext
  else e.exitHistoryBrowsing

def deleteWordBackwards : Editor :=
  let s := e.state
  if s.cursorCol = 0 then
    if s.cursorLine > 0 then e.killInto [lf] true s.mergeWithPrevious else e.exitHistoryBrowsing
  else
    let deleteFrom := findWordBackward (e.segment u .word) s.line s.cursorCol
    e.killInto (slice s.line deleteFrom s.cursorCol) true (s.setLine (s.line.take deleteFrom ++ s.after) deleteFrom)

def deleteWordForward : Editor :=
  let s := e.state
  if s.cursorCol ≥ s.line.length then
    if s.cursorLine + 1 < s.lines.length then e.killInto [lf] false s.mergeWithNext else e.exitHistoryBrowsing
  else
    let deleteTo := findWordForward (e.segment u .word) s.line s.cursorCol
    e.killInto (slice s.line s.cursorCol deleteTo) false (s.setLine (s.before ++ s.line.drop deleteTo) s.cursorCol)

/-- The document of `insertYankedText`. -/
def EditorState.insertYanked (s : EditorState) (text : Text) : EditorState :=
  let lines := splitLines text
  if lines.length = 1 then s.setLine (s.before ++ text ++ s.after) (s.cursorCol + text.length)
  else
    let lastLine := lines.getLastD []
    { lines := s.lines.take s.cursorLine ++ (s.before ++ lines.headD []) :: (lines.drop 1).dropLast ++
        (lastLine ++ s.after) :: s.lines.drop (s.cursorLine + 1)
      cursorLine := s.cursorLine + lines.length - 1
      cursorCol := lastLine.length }

/-- The document of `deleteYankedText`. -/
def EditorState.deleteYanked (s : EditorState) (yankedText : Text) : EditorState :=
  if yankedText = [] then s
  else
    let yankLines := splitLines yankedText
    if yankLines.length = 1 then
      s.setLine (s.line.take (s.cursorCol - yankedText.length) ++ s.after) (s.cursorCol - yankedText.length)
    else
      let startLine := s.cursorLine - (yankLines.length - 1)
      let first := s.lines[startLine]?.getD []
      let startCol := first.length - (yankLines.headD []).length
      { lines := s.lines.take startLine ++ (first.take startCol ++ s.after) :: s.lines.drop (startLine + yankLines.length)
        cursorLine := startLine
        cursorCol := startCol }

def yank : Editor :=
  match e.killRing.getLast? with
  | none => e
  | some text =>
    { e.exitHistoryBrowsing.pushUndoSnapshot with state := e.state.insertYanked text, lastAction := some .yank }

def yankPop : Editor :=
  if e.lastAction ≠ some .yank ∨ e.killRing.length ≤ 1 then e
  else
    let ring := rotate e.killRing
    let deleted := e.state.deleteYanked (e.killRing.getLastD [])
    { e.exitHistoryBrowsing.pushUndoSnapshot with
      killRing := ring
      state := deleted.insertYanked (ring.getLastD [])
      lastAction := some .yank }

/-! ### History and whole texts -/

/-- Where `setTextInternal` puts the cursor. -/
inductive CursorPlacement where
  | start | stop
  deriving DecidableEq

def setTextInternal (text : Text) (cursorPlacement : CursorPlacement) : Editor :=
  let lines := splitLines text
  { e with
    state :=
      match cursorPlacement with
      | .start => ⟨lines, 0, 0⟩
      | .stop => ⟨lines, lines.length - 1, (lines.getLastD []).length⟩ }

/-- `navigateHistory`; the direction is `1` or `-1`. -/
def navigateHistory (direction : ℤ) : Editor :=
  let cleared := { e with lastAction := none }
  let newIndex := e.historyIndex - direction
  if e.history = [] ∨ newIndex < -1 ∨ newIndex ≥ e.history.length then cleared
  else
    let entered :=
      if e.historyIndex = -1 ∧ newIndex ≥ 0 then { cleared.pushUndoSnapshot with historyDraft := some e.snapshot }
      else cleared
    if newIndex = -1 then
      match entered.historyDraft with
      | some draft =>
        { entered with
          historyIndex := newIndex
          historyDraft := none
          state := draft.state
          pastes := draft.pastes
          pasteCounter := draft.pasteCounter }
      | none => { entered with historyIndex := newIndex }.setTextInternal [] .stop
    else
      { entered with historyIndex := newIndex }.setTextInternal (e.history[newIndex.toNat]?.getD [])
        (if direction = -1 then .start else .stop)

/-- The text that `setText` is about to set. -/
def textToSet (text : Text) : Option Text := encodeSkillInvocations (normalizeText text)

/-- `setText`; the names of skills may throw. -/
def setText (text : Text) : Editor :=
  let exited := { e with lastAction := none }.exitHistoryBrowsing
  match textToSet text with
  | none => exited
  | some normalized =>
    let pushed := if joinLines lf e.state.lines ≠ normalized then exited.pushUndoSnapshot else exited
    { pushed with pastes := ∅, pasteCounter := 0 }.setTextInternal normalized .stop

/-- The moves of the cursor. Vertical moves, pages and jumps have a place in the document. -/
inductive CursorMove where
  | left | right | lineStart | lineEnd | wordLeft | wordRight
  | place (line col : ℕ)
  deriving DecidableEq

def moveTarget : CursorMove → ℕ × ℕ
  | .lineStart => (e.state.cursorLine, 0)
  | .lineEnd => (e.state.cursorLine, e.state.line.length)
  | .left =>
    let s := e.state
    if s.cursorCol > 0 then
      let length := ((e.segment u .grapheme s.before).getLast?.map fun seg => seg.segment.length).getD 1
      (s.cursorLine, s.cursorCol - length)
    else if s.cursorLine > 0 then (s.cursorLine - 1, (s.lines[s.cursorLine - 1]?.getD []).length)
    else (s.cursorLine, s.cursorCol)
  | .right =>
    let s := e.state
    if s.cursorCol < s.line.length then
      let length := ((e.segment u .grapheme s.after).head?.map fun seg => seg.segment.length).getD 1
      (s.cursorLine, s.cursorCol + length)
    else if s.cursorLine + 1 < s.lines.length then (s.cursorLine + 1, 0)
    else (s.cursorLine, s.cursorCol)
  | .wordLeft =>
    let s := e.state
    if s.cursorCol = 0 then
      if s.cursorLine > 0 then (s.cursorLine - 1, (s.lines[s.cursorLine - 1]?.getD []).length)
      else (s.cursorLine, s.cursorCol)
    else (s.cursorLine, findWordBackward (e.segment u .word) s.line s.cursorCol)
  | .wordRight =>
    let s := e.state
    if s.cursorCol ≥ s.line.length then
      if s.cursorLine + 1 < s.lines.length then (s.cursorLine + 1, 0) else (s.cursorLine, s.cursorCol)
    else (s.cursorLine, findWordForward (e.segment u .word) s.line s.cursorCol)
  | .place line col =>
    if line < e.state.lines.length ∧ col ≤ (e.state.lines[line]?.getD []).length then (line, col)
    else (e.state.cursorLine, e.state.cursorCol)

def moveCursor (move : CursorMove) : Editor :=
  let (line, col) := e.moveTarget u move
  { e with lastAction := none, state := { e.state with cursorLine := line, cursorCol := col } }

/-- What the user and the program do to the document between two submissions. -/
inductive Op where
  | insertCharacter (char : Text)
  | handlePaste (pasted : Text)
  | addNewLine
  | handleBackspace
  | handleForwardDelete
  | deleteToStartOfLine
  | deleteToEndOfLine
  | deleteWordBackwards
  | deleteWordForward
  | yank
  | yankPop
  | navigateHistory (older : Bool)
  | setText (text : Text)
  | insertTextAtCursor (text : Text)
  | move (move : CursorMove)
  deriving DecidableEq

def perform : Op → Editor
  | .insertCharacter char => e.insertCharacter char
  | .handlePaste pasted => e.handlePaste pasted
  | .addNewLine => e.addNewLine
  | .handleBackspace => e.handleBackspace u
  | .handleForwardDelete => e.handleForwardDelete u
  | .deleteToStartOfLine => e.deleteToStartOfLine
  | .deleteToEndOfLine => e.deleteToEndOfLine
  | .deleteWordBackwards => e.deleteWordBackwards u
  | .deleteWordForward => e.deleteWordForward u
  | .yank => e.yank
  | .yankPop => e.yankPop
  | .navigateHistory older => e.navigateHistory (if older then -1 else 1)
  | .setText text => e.setText text
  | .insertTextAtCursor text => e.insertTextAtCursor text
  | .move move => e.moveCursor u move

def performAll (ops : List Op) : Editor := ops.foldl (perform u) e

end Editor
end EasyPi.Tui
