/-
# A terminal

A screen of fixed size over a scrollback, with the sequences that move the cursor and
erase. A row is a function of the column. Printing wraps when a cell would go beyond the
last column, with the wrap deferred until that cell comes.

`Shows` relates a terminal to a document of rows: the screen is the part of the document
from `top` on, and the cursor stands in a row of the document. Each command is described by
what it does to the document, to `top` and to the cursor's row.
-/
import Mathlib.Data.List.Basic
import Mathlib.Logic.Function.Basic

namespace EasyPi

open List

abbrev TerminalRow (Cell : Type*) := ℕ → Cell

structure Terminal (Cell : Type*) where
  screen : ℕ → TerminalRow Cell
  scrollback : List (TerminalRow Cell)
  row : ℕ
  col : ℕ

/-- CR, LF, CUU, CUD, CHA, EL 2, ED 2, CUP without arguments, ED 3, printing, and sequences that
change nothing on the screen. -/
inductive TerminalCommand (Cell : Type*) where
  | carriageReturn
  | lineFeed
  | cursorUp (n : ℕ)
  | cursorDown (n : ℕ)
  | cursorColumn (n : ℕ)
  | eraseLine
  | eraseScreen
  | home
  | eraseScrollback
  | print (cells : List Cell)
  | mode

/-- The command leaves the cursor in the first column. -/
def TerminalCommand.KeepsMargin {Cell : Type*} : TerminalCommand Cell → Prop
  | .print _ | .cursorColumn _ => False
  | _ => True

/-- The size of a terminal and its empty cell. -/
structure TerminalSize (Cell : Type*) where
  width : ℕ
  height : ℕ
  blank : Cell

namespace Terminal

variable {Cell : Type*} (z : TerminalSize Cell)

def blankRow : TerminalRow Cell := fun _ => z.blank

/-- A row with some cells from the first column on. -/
def rowOf (cells : List Cell) : TerminalRow Cell := fun c => cells.getD c z.blank

/-- An empty terminal with the cursor in the corner. -/
def clean : Terminal Cell := ⟨fun _ => blankRow z, [], 0, 0⟩

def lineFeed (t : Terminal Cell) : Terminal Cell :=
  if t.row + 1 < z.height then { t with row := t.row + 1 }
  else
    { t with
      screen := fun r => if r + 1 < z.height then t.screen (r + 1) else blankRow z
      scrollback := t.scrollback ++ [t.screen 0] }

def put (t : Terminal Cell) (cell : Cell) : Terminal Cell :=
  let t := if t.col < z.width then t else { t.lineFeed z with col := 0 }
  { t with
    screen := Function.update t.screen t.row (Function.update (t.screen t.row) t.col cell)
    col := t.col + 1 }

def exec (t : Terminal Cell) : TerminalCommand Cell → Terminal Cell
  | .carriageReturn => { t with col := 0 }
  | .lineFeed => t.lineFeed z
  | .cursorUp n => { t with row := t.row - n }
  | .cursorDown n => { t with row := min (t.row + n) (z.height - 1) }
  | .cursorColumn n => { t with col := min (n - 1) (z.width - 1) }
  | .eraseLine => { t with screen := Function.update t.screen t.row (blankRow z) }
  | .eraseScreen => { t with screen := fun _ => blankRow z }
  | .home => { t with row := 0, col := 0 }
  | .eraseScrollback => { t with scrollback := [] }
  | .print cells => cells.foldl (put z) t
  | .mode => t

def run (t : Terminal Cell) (commands : List (TerminalCommand Cell)) : Terminal Cell := commands.foldl (exec z) t

variable {z} {t : Terminal Cell}

@[simp] theorem run_nil : t.run z [] = t := rfl

@[simp] theorem run_cons (command : TerminalCommand Cell) (commands : List (TerminalCommand Cell)) :
    t.run z (command :: commands) = (t.exec z command).run z commands := rfl

@[simp] theorem run_append (commands commands' : List (TerminalCommand Cell)) :
    t.run z (commands ++ commands') = (t.run z commands).run z commands' :=
  foldl_append

theorem lineFeed_col (t : Terminal Cell) : (t.lineFeed z).col = t.col := by
  unfold lineFeed
  split <;> rfl

theorem col_run {commands : List (TerminalCommand Cell)} (h : ∀ c ∈ commands, c.KeepsMargin)
    (ht : t.col = 0) : (t.run z commands).col = 0 := by
  induction commands generalizing t with
  | nil => exact ht
  | cons command commands ih =>
    refine ih (fun c hc => h c (mem_cons_of_mem _ hc)) ?_
    have hkeep := h command mem_cons_self
    cases command with
    | print cells => exact hkeep.elim
    | cursorColumn n => exact hkeep.elim
    | lineFeed => exact (lineFeed_col t).trans ht
    | carriageReturn => rfl
    | home => rfl
    | _ => exact ht

theorem print_fits (cells : List Cell) (h : t.col + cells.length ≤ z.width) :
    cells.foldl (put z) t = { t with
      screen := Function.update t.screen t.row fun c =>
        if t.col ≤ c then (cells[c - t.col]?).getD (t.screen t.row c) else t.screen t.row c
      col := t.col + cells.length } := by
  induction cells generalizing t with
  | nil => simp
  | cons cell cells ih =>
    simp only [length_cons] at h
    have hput : t.put z cell = { t with
        screen := Function.update t.screen t.row (Function.update (t.screen t.row) t.col cell)
        col := t.col + 1 } := by
      simp only [put, if_pos (show t.col < z.width by omega)]
    have hrow : (fun c => if t.col + 1 ≤ c then (cells[c - (t.col + 1)]?).getD
          (Function.update (t.screen t.row) t.col cell c)
        else Function.update (t.screen t.row) t.col cell c) =
        fun c => if t.col ≤ c then ((cell :: cells)[c - t.col]?).getD (t.screen t.row c)
          else t.screen t.row c := by
      funext c
      obtain hlt | rfl | hgt := Nat.lt_trichotomy c t.col
      · rw [if_neg (by omega), if_neg (by omega), Function.update_of_ne (by omega)]
      · rw [if_neg (by omega)]
        simp
      · rw [if_pos (by omega), if_pos (by omega), Function.update_of_ne (by omega),
          show c - t.col = c - (t.col + 1) + 1 by omega, List.getElem?_cons_succ]
    rw [foldl_cons, hput, ih (by simp only; omega)]
    simp only [Function.update_self, Function.update_idem, length_cons, hrow]
    rw [Nat.add_right_comm, Nat.add_assoc]

theorem print_blank {cells : List Cell} (hcol : t.col = 0) (hlen : cells.length ≤ z.width)
    (hbl : t.screen t.row = blankRow z) :
    t.exec z (.print cells) = { t with
      screen := Function.update t.screen t.row (rowOf z cells)
      col := cells.length } := by
  simp only [exec]
  rw [print_fits cells (by omega)]
  simp only [hcol, Nat.zero_le, if_true, Nat.sub_zero, Nat.zero_add, hbl]
  congr 1

/-! ### The screen as part of a document -/

variable (z) in
/-- The screen shows the document from the row `top` on, and the cursor is in its row `cursor`. -/
structure Shows (t : Terminal Cell) (doc : ℕ → TerminalRow Cell) (top cursor : ℕ) : Prop where
  rows : ∀ r < z.height, t.screen r = doc (top + r)
  row : top + t.row = cursor
  below : t.row < z.height

namespace Shows

variable {doc doc' : ℕ → TerminalRow Cell} {top cursor : ℕ}

section
variable (h : t.Shows z doc top cursor)
include h

theorem congr (hdoc : ∀ i, top ≤ i → i < top + z.height → doc i = doc' i) : t.Shows z doc' top cursor :=
  ⟨fun r hr => (h.rows r hr).trans (hdoc _ (by omega) (by omega)), h.row, h.below⟩

theorem withCursor {cursor' : ℕ} (heq : cursor = cursor') : t.Shows z doc top cursor' := heq ▸ h

theorem top_le : top ≤ cursor := by
  have := h.row
  omega

theorem lt_bottom : cursor < top + z.height := by
  have := h.row
  have := h.below
  omega

theorem carriageReturn : (t.exec z .carriageReturn).Shows z doc top cursor := ⟨h.rows, h.row, h.below⟩

theorem cursorColumn (n : ℕ) : (t.exec z (.cursorColumn n)).Shows z doc top cursor := ⟨h.rows, h.row, h.below⟩

theorem cursorDown {n : ℕ} (hn : cursor + n < top + z.height) :
    (t.exec z (.cursorDown n)).Shows z doc top (cursor + n) := by
  have hrow := h.row
  refine ⟨h.rows, ?_, ?_⟩ <;> simp only [exec] <;> omega

theorem cursorUp {n : ℕ} (hn : top + n ≤ cursor) : (t.exec z (.cursorUp n)).Shows z doc top (cursor - n) := by
  have hrow := h.row
  have hbel := h.below
  refine ⟨h.rows, ?_, ?_⟩ <;> simp only [exec] <;> omega

theorem lineFeed (hbl : cursor + 1 = top + z.height → doc (cursor + 1) = blankRow z) :
    (t.exec z .lineFeed).Shows z doc (max top (cursor + 2 - z.height)) (cursor + 1) := by
  have hrow := h.row
  have hbel := h.below
  simp only [exec, Terminal.lineFeed]
  split
  · rw [Nat.max_eq_left (by omega)]
    exact ⟨h.rows, by simp only; omega, by simp only; omega⟩
  · rw [show max top (cursor + 2 - z.height) = top + 1 by omega]
    refine ⟨fun r hr => ?_, by simp only; omega, hbel⟩
    simp only
    split
    · rename_i hr'
      rw [h.rows (r + 1) hr']
      congr 1
      omega
    · rw [show top + 1 + r = cursor + 1 by omega]
      exact (hbl (by omega)).symm

theorem eraseLine : (t.exec z .eraseLine).Shows z (Function.update doc cursor (blankRow z)) top cursor := by
  have hrow := h.row
  refine ⟨fun r hr => ?_, hrow, h.below⟩
  simp only [exec, Function.update_apply]
  by_cases heq : r = t.row
  · rw [if_pos heq, if_pos (by omega)]
  · rw [if_neg heq, if_neg (by omega)]
    exact h.rows r hr

theorem print {cells : List Cell} (hcol : t.col = 0) (hlen : cells.length ≤ z.width) (hbl : doc cursor = blankRow z) :
    (t.exec z (.print cells)).Shows z (Function.update doc cursor (rowOf z cells)) top cursor := by
  have hrow := h.row
  rw [print_blank hcol hlen (by rw [h.rows _ h.below, hrow, hbl])]
  refine ⟨fun r hr => ?_, hrow, h.below⟩
  simp only [Function.update_apply]
  by_cases heq : r = t.row
  · rw [if_pos heq, if_pos (by omega)]
  · rw [if_neg heq, if_neg (by omega)]
    exact h.rows r hr

end

end Shows

theorem shows_clear (hhei : 0 < z.height) (t : Terminal Cell) :
    (t.run z [.eraseScreen, .home, .eraseScrollback]).Shows z (fun _ => blankRow z) 0 0 :=
  ⟨fun _ _ => rfl, rfl, hhei⟩

theorem shows_clean (hhei : 0 < z.height) : (clean z).Shows z (fun _ => blankRow z) 0 0 := ⟨fun _ _ => rfl, rfl, hhei⟩

/-! ### Printing lines one below the other -/

/-- A document with some rows replaced, from a row on. -/
def overwrite (doc : ℕ → TerminalRow Cell) (start : ℕ) (rows : List (TerminalRow Cell)) : ℕ → TerminalRow Cell :=
  fun i => if start ≤ i then (rows[i - start]?).getD (doc i) else doc i

theorem overwrite_nil (doc : ℕ → TerminalRow Cell) (start : ℕ) : overwrite doc start [] = doc := by
  funext i
  simp [overwrite]

theorem overwrite_cons (doc : ℕ → TerminalRow Cell) (start : ℕ) (row : TerminalRow Cell)
    (rows : List (TerminalRow Cell)) :
    overwrite doc start (row :: rows) = overwrite (Function.update doc start row) (start + 1) rows := by
  funext i
  unfold overwrite
  obtain hlt | rfl | hgt := Nat.lt_trichotomy i start
  · rw [if_neg (by omega), if_neg (by omega), Function.update_of_ne (by omega)]
  · rw [if_neg (show ¬ i + 1 ≤ i by omega)]
    simp
  · rw [if_pos (by omega), if_pos (by omega), Function.update_of_ne (by omega),
      show i - start = i - (start + 1) + 1 by omega, List.getElem?_cons_succ]

theorem overwrite_concat (doc : ℕ → TerminalRow Cell) (start : ℕ) (rows : List (TerminalRow Cell))
    (row : TerminalRow Cell) :
    overwrite doc start (rows ++ [row]) = Function.update (overwrite doc start rows) (start + rows.length) row := by
  funext i
  simp only [overwrite, Function.update_apply]
  obtain hlt | rfl | hgt := Nat.lt_trichotomy i (start + rows.length)
  · rw [if_neg (show ¬ i = start + rows.length by omega)]
    split
    · rw [List.getElem?_append_left (by omega)]
    · rfl
  · simp
  · rw [if_neg (show ¬ i = start + rows.length by omega), if_pos (by omega), if_pos (by omega),
      List.getElem?_eq_none (by simp; omega), List.getElem?_eq_none (by omega)]

/-- A line in the row of the cursor, which is erased first or not. -/
def printLine (erase : Bool) (cells : List Cell) : List (TerminalCommand Cell) :=
  (if erase then [.eraseLine] else []) ++ [.print cells]

/-- The lines that follow, each in the next row. -/
def printNext (erase : Bool) (lines : List (List Cell)) : List (TerminalCommand Cell) :=
  lines.flatMap fun cells => [.carriageReturn, .lineFeed] ++ printLine erase cells

variable {doc : ℕ → TerminalRow Cell} {top cursor : ℕ}

section
variable (h : t.Shows z doc top cursor)
include h

theorem Shows.printLine {erase : Bool} {cells : List Cell} (hcol : t.col = 0) (hlen : cells.length ≤ z.width)
    (hbl : erase = false → doc cursor = blankRow z) :
    (t.run z (printLine erase cells)).Shows z (Function.update doc cursor (rowOf z cells)) top cursor := by
  cases erase with
  | false => exact h.print hcol hlen (hbl rfl)
  | true =>
    have hera := h.eraseLine.print hcol hlen (Function.update_self ..)
    rwa [Function.update_idem] at hera

/-- **Lines printed below the cursor** are those rows of the document, and the screen goes as far
as the last of them. -/
theorem Shows.printNext (erase : Bool) (lines : List (List Cell)) (hlen : ∀ cells ∈ lines, cells.length ≤ z.width)
    (hbel : ∀ i, top + z.height ≤ i → doc i = blankRow z) (hbl : erase = false → ∀ i, cursor < i → doc i = blankRow z) :
    (t.run z (printNext erase lines)).Shows z (overwrite doc (cursor + 1) (lines.map (rowOf z)))
      (max top (cursor + lines.length + 1 - z.height)) (cursor + lines.length) := by
  have hlt := h.lt_bottom
  induction lines generalizing t doc top cursor with
  | nil =>
    have htop : max top (cursor + 0 + 1 - z.height) = top := by omega
    simpa [Terminal.printNext, overwrite_nil, htop] using h
  | cons cells lines ih =>
    have hnext : ((t.exec z .carriageReturn).exec z .lineFeed).Shows z doc
        (max top (cursor + 2 - z.height)) (cursor + 1) :=
      h.carriageReturn.lineFeed fun heq => hbel _ (by omega)
    have hcol : ((t.exec z .carriageReturn).exec z .lineFeed).col = 0 := lineFeed_col _
    have hline := hnext.printLine hcol (hlen cells mem_cons_self)
      fun he => hbl he _ (Nat.lt_succ_self _)
    have hrest := ih hline (fun c hc => hlen c (mem_cons_of_mem _ hc)) (fun i hi => ?_)
      (fun he i hi => ?_) hline.lt_bottom
    · rw [map_cons, overwrite_cons, length_cons]
      have htop : max (max top (cursor + 2 - z.height)) (cursor + 1 + lines.length + 1 - z.height) =
          max top (cursor + (lines.length + 1) + 1 - z.height) := by omega
      have hcur : cursor + 1 + lines.length = cursor + (lines.length + 1) := by omega
      rw [htop, hcur] at hrest
      have hcom : Terminal.printNext erase (cells :: lines) =
          [.carriageReturn, .lineFeed] ++ Terminal.printLine erase cells ++ Terminal.printNext erase lines := rfl
      rw [hcom, run_append, run_append]
      exact hrest
    · have := hnext.lt_bottom
      rw [Function.update_of_ne (by omega)]
      exact hbel i (by omega)
    · rw [Function.update_of_ne (by omega)]
      exact hbl he i (by omega)

theorem Shows.eraseNext (n : ℕ) (hbot : cursor + n < top + z.height) :
    (t.run z (List.replicate n [.carriageReturn, .lineFeed, .eraseLine]).flatten).Shows z
      (overwrite doc (cursor + 1) (List.replicate n (blankRow z))) top (cursor + n) := by
  induction n with
  | zero =>
    rw [show List.replicate 0 (blankRow z) = [] from rfl, overwrite_nil]
    exact h
  | succ n ih =>
    rw [replicate_succ', flatten_append, flatten_singleton, run_append,
      replicate_succ', overwrite_concat, length_replicate]
    have hfeed := (ih (by omega)).carriageReturn.lineFeed fun heq => absurd heq (by omega)
    rw [show max top (cursor + n + 2 - z.height) = top by omega] at hfeed
    rw [show cursor + (n + 1) = cursor + n + 1 by omega, show cursor + 1 + n = cursor + n + 1 by omega]
    exact hfeed.eraseLine

end

end Terminal
end EasyPi
