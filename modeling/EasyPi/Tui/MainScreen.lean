/-
# Differential rendering

`TuiMainScreen.doRender` (`packages/tui/src/tui-main-screen.ts`) without overlays and
without image lines. A frame is a list of lines; a line is a list of glyphs and escape
sequences, and what is written is a list of terminal commands. What the text utilities and
the terminal do with a glyph is a parameter: `normalizeTerminalOutput` replaces some of
them (tabs, for one), and each takes some cells.
-/
import Mathlib.Data.Int.Notation
import EasyPi.Lib.Terminal

namespace EasyPi.Tui

/-- A piece of a line: a glyph, an escape sequence, or one that sets a private mode of the
terminal. -/
inductive Piece (Glyph : Type*) where
  | glyph (g : Glyph)
  | sequence (text : String)
  | privateMode (text : String)
  deriving DecidableEq

abbrev Line (Glyph : Type*) := List (Piece Glyph)

/-- What a glyph is replaced by in `normalizeTerminalOutput`, and the cells it takes. -/
structure GlyphMap (Glyph Cell : Type*) where
  normalize : Glyph → List Glyph
  cells : Glyph → List Cell

/-- A frame, and whether `clearOnShrink` is set. -/
structure Frame (Glyph : Type*) where
  lines : List (Line Glyph)
  clearOnShrink : Bool

/-- The render state of `TuiMainScreen`. -/
structure MainScreen (Glyph : Type*) where
  previousLines : List (Line Glyph) := []
  previousWidth : ℕ := 0
  previousHeight : ℕ := 0
  cursorRow : ℕ := 0
  hardwareCursorRow : ℕ := 0
  maxLinesRendered : ℕ := 0
  previousViewportTop : ℕ := 0

/-- How a frame is rendered: in full, with or without clearing the screen; not at all; by clearing
the lines that are gone; or from the first changed line to the last. -/
inductive RenderPath where
  | full (clear : Bool)
  | unchanged
  | deleted
  | changed (firstChanged lastChanged : ℕ)
  deriving DecidableEq

variable {Glyph Cell : Type*} [DecidableEq Glyph] (g : GlyphMap Glyph Cell) (z : TerminalSize Cell)

/-- `CURSOR_MARKER`. -/
def cursorMarker : Piece Glyph := .sequence "\x1b_pi:c\x07"

/-- `SEGMENT_RESET`. -/
def segmentReset : Line Glyph := [.sequence "\x1b[0m", .sequence "\x1b]8;;\x07"]

variable (line : Line Glyph)

def normalizeTerminalOutput : Line Glyph :=
  line.flatMap fun
    | .glyph x => (g.normalize x).map .glyph
    | .sequence text => [.sequence text]
    | .privateMode _ => []

def lineCells : List Cell :=
  line.flatMap fun
    | .glyph x => g.cells x
    | _ => []

def visibleWidth : ℕ := (lineCells g (normalizeTerminalOutput g line)).length

/-- `extractCursorPosition`: the row and column of the last marker in the last `height` lines, and
the lines without it. -/
def extractCursorPosition (lines : List (Line Glyph)) (height : ℕ) : Option (ℕ × ℕ) × List (Line Glyph) :=
  let viewportTop := lines.length - height
  match (List.range lines.length).reverse.find? fun row =>
      viewportTop ≤ row && cursorMarker ∈ lines.getD row [] with
  | none => (none, lines)
  | some row =>
    let line := lines.getD row []
    (some (row, visibleWidth g (line.takeWhile (· ≠ cursorMarker))), lines.set row (line.erase cursorMarker))

def applyLineResets (lines : List (Line Glyph)) : List (Line Glyph) :=
  lines.map fun line => normalizeTerminalOutput g line ++ segmentReset

/-- The cursor position and the lines of a frame. -/
def frameLines (lines : List (Line Glyph)) (height : ℕ) : Option (ℕ × ℕ) × List (Line Glyph) :=
  let (cursorPos, lines) := extractCursorPosition g lines height
  (cursorPos, applyLineResets g lines)

/-- The first and the last line that differ. Lines that are appended count as changed. -/
def changedRange (previousLines newLines : List (Line Glyph)) : Option (ℕ × ℕ) :=
  let maxLines := max newLines.length previousLines.length
  let differs := fun i => decide (previousLines.getD i [] ≠ newLines.getD i [])
  let firstChanged := (List.range maxLines).find? differs
  let lastChanged := (List.range maxLines).reverse.find? differs
  if previousLines.length < newLines.length then
    some (firstChanged.getD previousLines.length, newLines.length - 1)
  else
    match firstChanged, lastChanged with
    | some firstChanged, some lastChanged => some (firstChanged, lastChanged)
    | _, _ => none

namespace MainScreen

variable (s : MainScreen Glyph)

def widthChanged : Bool := s.previousWidth ≠ 0 && s.previousWidth ≠ z.width

def heightChanged : Bool := s.previousHeight ≠ 0 && s.previousHeight ≠ z.height

/-- `prevViewportTop`. -/
def viewportTop : ℕ :=
  let previousBufferLength :=
    if 0 < s.previousHeight then s.previousViewportTop + s.previousHeight else z.height
  if s.heightChanged z then previousBufferLength - z.height else s.previousViewportTop

/-- The way `doRender` takes. `termux` is `isTermuxSession`. -/
def renderPath (termux clearOnShrink : Bool) (newLines : List (Line Glyph)) : RenderPath :=
  if s.previousLines = [] && !s.widthChanged z && !s.heightChanged z then .full false
  else if s.widthChanged z then .full true
  else if s.heightChanged z && !termux then .full true
  else if clearOnShrink && newLines.length < s.maxLinesRendered then .full true
  else
    match changedRange s.previousLines newLines with
    | none => .unchanged
    | some (firstChanged, lastChanged) =>
      if newLines.length ≤ firstChanged then
        if newLines.length < s.previousLines.length &&
            (newLines.length - 1 < s.viewportTop z ||
              z.height < s.previousLines.length - newLines.length) then .full true
        else .deleted
      else if firstChanged < s.viewportTop z then .full true
      else .changed firstChanged lastChanged

/-! ### Writing -/

def moveRows (lineDiff : ℤ) : List (TerminalCommand Cell) :=
  if 0 < lineDiff then [.cursorDown lineDiff.toNat]
  else if lineDiff < 0 then [.cursorUp (-lineDiff).toNat]
  else []

/-- Lines one below the other, from the row of the cursor on. -/
def printLines (erase : Bool) : List (Line Glyph) → List (TerminalCommand Cell)
  | [] => []
  | line :: lines =>
    Terminal.printLine erase (lineCells g line) ++ Terminal.printNext erase (lines.map (lineCells g))

def positionHardwareCursor (cursorPos : Option (ℕ × ℕ)) (totalLines : ℕ) :
    MainScreen Glyph × List (TerminalCommand Cell) :=
  match cursorPos with
  | none => (s, [.mode])
  | some (row, col) =>
    if totalLines = 0 then (s, [.mode])
    else
      let targetRow := min row (totalLines - 1)
      ({ s with hardwareCursorRow := targetRow },
        moveRows (targetRow - s.hardwareCursorRow) ++ [.cursorColumn (col + 1), .mode])

def fullRender (clear : Bool) (newLines : List (Line Glyph)) (cursorPos : Option (ℕ × ℕ)) :
    MainScreen Glyph × List (TerminalCommand Cell) :=
  let commands := [.mode] ++ (if clear then [.eraseScreen, .home, .eraseScrollback] else []) ++
    printLines g false newLines ++ [.mode]
  let bufferLength := max z.height newLines.length
  let s := { s with
    cursorRow := newLines.length - 1
    hardwareCursorRow := newLines.length - 1
    maxLinesRendered := if clear then newLines.length else max s.maxLinesRendered newLines.length
    previousViewportTop := bufferLength - z.height }
  let (s, position) := s.positionHardwareCursor cursorPos newLines.length
  ({ s with previousLines := newLines, previousWidth := z.width, previousHeight := z.height }, commands ++ position)

/-- Nothing has changed but perhaps the cursor. -/
def renderUnchanged (newLines : List (Line Glyph)) (cursorPos : Option (ℕ × ℕ)) :
    MainScreen Glyph × List (TerminalCommand Cell) :=
  let viewportTop := s.viewportTop z
  let (s, position) := s.positionHardwareCursor cursorPos newLines.length
  ({ s with previousViewportTop := viewportTop, previousHeight := z.height }, position)

def renderDeleted (newLines : List (Line Glyph)) (cursorPos : Option (ℕ × ℕ)) :
    MainScreen Glyph × List (TerminalCommand Cell) :=
  let viewportTop := s.viewportTop z
  let previousLength := s.previousLines.length
  let targetRow := newLines.length - 1
  let extraLines := previousLength - newLines.length
  let clearStartOffset := if newLines.length = 0 then 0 else 1
  let lineDiff : ℤ := (targetRow - viewportTop) - (s.hardwareCursorRow - viewportTop)
  let moveBack := extraLines - 1 + clearStartOffset
  let commands :=
    [.mode] ++ moveRows lineDiff ++ [.carriageReturn] ++
    (if 0 < extraLines && 0 < clearStartOffset then [.cursorDown clearStartOffset] else []) ++
    ((List.range extraLines).flatMap fun i => [.carriageReturn, .eraseLine] ++
      if i < extraLines - 1 then [.cursorDown 1] else []) ++
    (if 0 < moveBack then [.cursorUp moveBack] else []) ++ [.mode]
  let (s, commands) := if newLines.length < previousLength then
      ({ s with cursorRow := targetRow, hardwareCursorRow := targetRow }, commands)
    else (s, [])
  let (s, position) := s.positionHardwareCursor cursorPos newLines.length
  ({ s with
      previousLines := newLines
      previousWidth := z.width
      previousHeight := z.height
      previousViewportTop := viewportTop }, commands ++ position)

/-- The scroll that brings the row to move to onto the screen, with the viewport top and the cursor
row after it. -/
def scrollTo (moveTargetRow : ℕ) : List (TerminalCommand Cell) × ℕ × ℕ :=
  let viewportTop := s.viewportTop z
  let viewportBottom := viewportTop + z.height - 1
  if viewportBottom < moveTargetRow then
    let currentScreenRow : ℤ := max 0 (min (z.height - 1) (s.hardwareCursorRow - viewportTop))
    let moveToBottom := z.height - 1 - currentScreenRow
    let scroll := moveTargetRow - viewportBottom
    ((if 0 < moveToBottom then [.cursorDown moveToBottom.toNat] else []) ++
        (List.replicate scroll [.carriageReturn, .lineFeed]).flatten, viewportTop + scroll, moveTargetRow)
  else ([], viewportTop, s.hardwareCursorRow)

/-- The lines from the first changed one to the last are printed, and lines that are gone are
cleared. -/
def renderChanged (firstChanged lastChanged : ℕ) (newLines : List (Line Glyph))
    (cursorPos : Option (ℕ × ℕ)) : MainScreen Glyph × List (TerminalCommand Cell) :=
  let previousLength := s.previousLines.length
  let appendStart := previousLength < newLines.length && firstChanged = previousLength &&
    0 < firstChanged
  let moveTargetRow := if appendStart then firstChanged - 1 else firstChanged
  let (scroll, viewportTop, hardwareCursorRow) := s.scrollTo z moveTargetRow
  let lineDiff : ℤ := (moveTargetRow - viewportTop) - (hardwareCursorRow - viewportTop)
  let renderEnd := min lastChanged (newLines.length - 1)
  let extraLines := previousLength - newLines.length
  let clearExtra := if newLines.length < previousLength then
      (if renderEnd < newLines.length - 1 then [.cursorDown (newLines.length - 1 - renderEnd)]
        else []) ++ (List.replicate extraLines [.carriageReturn, .lineFeed, .eraseLine]).flatten ++ [.cursorUp extraLines]
    else []
  let finalCursorRow := if newLines.length < previousLength && renderEnd < newLines.length - 1 then
      newLines.length - 1
    else renderEnd
  let commands := [.mode] ++ scroll ++ moveRows lineDiff ++
    (if appendStart then [.carriageReturn, .lineFeed] else [.carriageReturn]) ++
    printLines g true ((newLines.drop firstChanged).take (renderEnd + 1 - firstChanged)) ++ clearExtra ++ [.mode]
  let s := { s with
    cursorRow := newLines.length - 1
    hardwareCursorRow := finalCursorRow
    maxLinesRendered := max s.maxLinesRendered newLines.length
    previousViewportTop := max viewportTop (finalCursorRow + 1 - z.height) }
  let (s, position) := s.positionHardwareCursor cursorPos newLines.length
  ({ s with previousLines := newLines, previousWidth := z.width, previousHeight := z.height }, commands ++ position)

/-- `doRender`. It throws when a line it prints is wider than the terminal. -/
def doRender (termux : Bool) (frame : Frame Glyph) : Option (MainScreen Glyph × List (TerminalCommand Cell)) :=
  let (cursorPos, newLines) := frameLines g frame.lines z.height
  match s.renderPath z termux frame.clearOnShrink newLines with
  | .full clear => some (s.fullRender g z clear newLines cursorPos)
  | .unchanged => some (s.renderUnchanged z newLines cursorPos)
  | .deleted => some (s.renderDeleted z newLines cursorPos)
  | .changed firstChanged lastChanged =>
    let renderEnd := min lastChanged (newLines.length - 1)
    if ((newLines.drop firstChanged).take (renderEnd + 1 - firstChanged)).all fun line =>
        (lineCells g line).length ≤ z.width then
      some (s.renderChanged g z firstChanged lastChanged newLines cursorPos)
    else none

end MainScreen
end EasyPi.Tui
