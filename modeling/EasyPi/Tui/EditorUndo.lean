/-
# Undo

An operation on the document takes a snapshot before it changes anything, but for a character that continues a word
and for a step in the history of prompts behind the first. So the operations since a submission fall into editing
units, and undo goes back over them one by one.
-/
import EasyPi.Lib.Runs
import EasyPi.Tui.Editor

namespace EasyPi.Tui

open List
namespace Editor

/-- An operation that pushes nothing and is a move of the cursor or leaves the document as it is. -/
def Idle (u : Unicode) (e : Editor) (op : Op) : Prop :=
  (e.perform u op).undoStack = e.undoStack ∧ ((∃ move, op = .move move) ∨ (e.perform u op).snapshot = e.snapshot)

/-- An operation that continues a word, or changes nothing at all. -/
def ContinuesWord (u : Unicode) (e : Editor) (op : Op) : Prop :=
  (∃ char, op = .insertCharacter char ∧ isWhitespaceChar char = false) ∨ e.perform u op = e

/-- A step in the history of prompts, or an idle operation. -/
def Browses (u : Unicode) (e : Editor) (op : Op) : Prop := (∃ older, op = .navigateHistory older) ∨ Idle u e op

/-- Operations that are at most one editing unit: a run of typed characters, of which only the first may be white
space, an excursion into the history, or a single other operation; idle operations may stand behind it. -/
def OneUnit (u : Unicode) (e : Editor) : List Op → Prop
  | [] => False
  | .insertCharacter char :: rest =>
    (isWhitespaceChar char ∨ e.lastAction ≠ some .typeWord) ∧ ∃ run tail, rest = run ++ tail ∧
      Along (perform u) (ContinuesWord u) (e.insertCharacter char) run ∧
      Along (perform u) (Idle u) ((e.insertCharacter char).performAll u run) tail
  | .navigateHistory older :: rest =>
    Along (perform u) (Browses u) (e.perform u (.navigateHistory older)) rest
  | op :: rest => Along (perform u) (Idle u) (e.perform u op) rest

/-- Operations as editing units, one after the other. -/
def Units (u : Unicode) : Editor → List (List Op) → Prop
  | _, [] => True
  | e, unit :: units => OneUnit u e unit ∧ Units u (e.performAll u unit) units

def snapshotsBefore (u : Unicode) : Editor → List (List Op) → List EditorSnapshot
  | _, [] => []
  | e, unit :: units => e.snapshot :: snapshotsBefore u (e.performAll u unit) units

/-- A text is set only when it differs from that of the document. -/
def SetsOther (e : Editor) : Op → Prop
  | .setText text => ∀ normalized ∈ textToSet text, joinLines lf e.state.lines ≠ normalized
  | _ => True

instance (e : Editor) : DecidablePred (SetsOther e) := fun op => by
  unfold SetsOther
  split <;> infer_instance

/-! ### One operation -/

/-- What one operation does to the undo stack. -/
inductive Outcome (u : Unicode) (e : Editor) (op : Op) : Prop where
  | pushed (stack : (e.perform u op).undoStack = e.undoStack ++ [e.snapshot])
      (typed : ∀ char, op = .insertCharacter char → isWhitespaceChar char ∨ e.lastAction ≠ some .typeWord)
      (word : (e.perform u op).lastAction = some .typeWord ↔ ∃ char, op = .insertCharacter char)
      (browsing : (e.perform u op).historyIndex ≠ -1 ↔ ∃ older, op = .navigateHistory older)
  | typed (char : Text) (op_eq : op = .insertCharacter char) (plain : isWhitespaceChar char = false)
      (word : e.lastAction = some .typeWord) (stack : (e.perform u op).undoStack = e.undoStack)
  | browsed (older : Bool) (op_eq : op = .navigateHistory older) (browsing : e.historyIndex ≠ -1)
      (stack : (e.perform u op).undoStack = e.undoStack) (word : (e.perform u op).lastAction = none)
  | exited (same : e.perform u op = e.exitHistoryBrowsing)
  | same (same : e.perform u op = e)
  | idle (idle : Idle u e op) (word : (e.perform u op).lastAction = none)
      (browsing : (e.perform u op).historyIndex = -1 ∨ (e.perform u op).historyIndex = e.historyIndex)

variable {u : Unicode} {e : Editor} {op : Op} {ops : List Op}

theorem Outcome.of_push (hsta : (e.perform u op).undoStack = e.undoStack ++ [e.snapshot])
    (hword : (e.perform u op).lastAction ≠ some .typeWord) (hidx : (e.perform u op).historyIndex = -1)
    (htyp : ∀ char, op ≠ .insertCharacter char) (hbro : ∀ older, op ≠ .navigateHistory older) : Outcome u e op :=
  .pushed hsta (fun char heq => absurd heq (htyp char))
    ⟨fun h => absurd h hword, fun ⟨char, heq⟩ => absurd heq (htyp char)⟩
    ⟨fun h => absurd hidx h, fun ⟨older, heq⟩ => absurd heq (hbro older)⟩

theorem insertCharacter_outcome (char : Text) : Outcome u e (.insertCharacter char) := by
  by_cases hpush : isWhitespaceChar char ∨ e.lastAction ≠ some .typeWord
  · have hpush' : isWhitespaceChar char ∨ e.exitHistoryBrowsing.lastAction ≠ some .typeWord := hpush
    refine .pushed ?_ (fun c heq => ?_) ⟨fun _ => ⟨char, rfl⟩, fun _ => rfl⟩ ?_
    · simp only [perform, insertCharacter, if_pos hpush']
      rfl
    · cases heq
      exact hpush
    · refine ⟨fun h => absurd ?_ h, fun ⟨older, heq⟩ => by cases heq⟩
      simp only [perform, insertCharacter, if_pos hpush']
      rfl
  · have hpush' : ¬ (isWhitespaceChar char ∨ e.exitHistoryBrowsing.lastAction ≠ some .typeWord) := hpush
    rw [not_or, not_not] at hpush
    refine .typed char rfl (by simpa using hpush.1) hpush.2 ?_
    simp only [perform, insertCharacter, if_neg hpush']
    rfl

theorem navigateHistory_outcome (older : Bool) : Outcome u e (.navigateHistory older) := by
  have hdir : (if older then (-1 : ℤ) else 1) = -1 ∨ (if older then (-1 : ℤ) else 1) = 1 := by
    cases older
    · exact Or.inr rfl
    · exact Or.inl rfl
  generalize hd : (if older then (-1 : ℤ) else 1) = direction at hdir
  have hper : e.perform u (.navigateHistory older) = e.navigateHistory direction := by
    change e.navigateHistory (if older then -1 else 1) = _
    rw [hd]
  by_cases hnone : e.history = [] ∨ e.historyIndex - direction < -1 ∨ e.historyIndex - direction ≥ e.history.length
  · have heq : e.navigateHistory direction = { e with lastAction := none } := by
      unfold navigateHistory
      dsimp only
      rw [if_pos hnone]
    refine .idle ⟨?_, Or.inr ?_⟩ ?_ (Or.inr ?_)
    · rw [hper, heq]
    · rw [hper, heq]
      rfl
    · rw [hper, heq]
    · rw [hper, heq]
  by_cases hpre : e.historyIndex = -1
  · have hnew : e.historyIndex - direction ≥ 0 := by
      rw [not_or, not_or] at hnone
      omega
    have heq : e.navigateHistory direction = ({ e with
        lastAction := none
        undoStack := e.undoStack ++ [e.snapshot]
        historyDraft := some e.snapshot
        historyIndex := e.historyIndex - direction } : Editor).setTextInternal
          (e.history[(e.historyIndex - direction).toNat]?.getD []) (if direction = -1 then .start else .stop) := by
      have hent : e.historyIndex = -1 ∧ e.historyIndex - direction ≥ 0 := ⟨hpre, hnew⟩
      have hins : ¬ e.historyIndex - direction = -1 := by omega
      unfold navigateHistory
      dsimp only
      rw [if_neg hnone, if_neg hins, if_pos hent]
      rfl
    refine .pushed ?_ (fun char hchar => by cases hchar) ⟨fun hword => ?_, fun ⟨char, hchar⟩ => by cases hchar⟩
      ⟨fun _ => ⟨older, rfl⟩, fun _ => ?_⟩
    · rw [hper, heq]
      rfl
    · rw [hper, heq] at hword
      cases hword
    · rw [hper, heq]
      change e.historyIndex - direction ≠ -1
      omega
  · have hkp : (e.navigateHistory direction).undoStack = e.undoStack ∧
        (e.navigateHistory direction).lastAction = none := by
      have hins : ¬ (e.historyIndex = -1 ∧ e.historyIndex - direction ≥ 0) := fun hand => hpre hand.1
      unfold navigateHistory
      dsimp only
      simp only [if_neg hnone, if_neg hins]
      split
      · split
        · exact ⟨rfl, rfl⟩
        · exact ⟨rfl, rfl⟩
      · exact ⟨rfl, rfl⟩
    exact .browsed older rfl hpre (hper ▸ hkp.1) (hper ▸ hkp.2)

theorem killInto_outcome (htyp : ∀ char, op ≠ .insertCharacter char) (hbro : ∀ older, op ≠ .navigateHistory older)
    (hkill : e.perform u op = e.exitHistoryBrowsing ∨ ∃ text prepended state, e.perform u op =
      e.killInto text prepended state) : Outcome u e op := by
  rcases hkill with hexit | ⟨text, prepended, state, hkill⟩
  · exact .exited hexit
  · refine .of_push ?_ ?_ ?_ htyp hbro
    · rw [hkill]
      rfl
    · rw [hkill]
      exact fun h => by cases h
    · rw [hkill]
      rfl

theorem Outcome.of_eq (e' : Editor) (heq : e.perform u op = e')
    (hsta : e'.undoStack = e.undoStack ++ [e.snapshot]) (hword : e'.lastAction ≠ some .typeWord)
    (hidx : e'.historyIndex = -1) (htyp : ∀ char, op ≠ .insertCharacter char)
    (hbro : ∀ older, op ≠ .navigateHistory older) : Outcome u e op := by
  subst heq
  exact .of_push hsta hword hidx htyp hbro

theorem handlePaste_outcome (pasted : Text) : Outcome u e (.handlePaste pasted) := by
  refine .of_eq _ rfl ?_ ?_ ?_ (by simp) (by simp)
  all_goals
    simp only [perform, handlePaste]
    split
  · rfl
  · rfl
  · exact fun h => by cases h
  · exact fun h => by cases h
  · rfl
  · rfl

theorem deleteBefore_fields (e : Editor) : (e.deleteBefore u).undoStack = e.undoStack ∧
    (e.deleteBefore u).lastAction = e.lastAction ∧ (e.deleteBefore u).historyIndex = e.historyIndex := by
  unfold deleteBefore
  dsimp only
  split
  · exact ⟨rfl, rfl, rfl⟩
  · exact ⟨rfl, rfl, rfl⟩

theorem handleBackspace_outcome : Outcome u e .handleBackspace := by
  by_cases hcol : e.state.cursorCol > 0
  · have heq : e.perform u .handleBackspace =
        { e.exitHistoryBrowsing with lastAction := none }.pushUndoSnapshot.deleteBefore u := by
      simp only [perform, handleBackspace, if_pos hcol]
    obtain ⟨hsta, hword, hidx⟩ :=
      deleteBefore_fields (u := u) { e.exitHistoryBrowsing with lastAction := none }.pushUndoSnapshot
    exact .of_eq _ heq hsta (by rw [hword]; exact fun h => by cases h) hidx (by simp) (by simp)
  by_cases hline : e.state.cursorLine > 0
  · exact .of_eq { { e.exitHistoryBrowsing with lastAction := none }.pushUndoSnapshot with
      state := e.state.mergeWithPrevious } (by simp only [perform, handleBackspace, if_neg hcol, if_pos hline]) rfl
      (fun h => by cases h) rfl (by simp) (by simp)
  · have heq : e.perform u .handleBackspace = { e.exitHistoryBrowsing with lastAction := none } := by
      simp only [perform, handleBackspace, if_neg hcol, if_neg hline]
    exact .idle ⟨by rw [heq]; rfl, Or.inr (by rw [heq]; rfl)⟩ (by rw [heq]) (Or.inl (by rw [heq]; rfl))

theorem handleForwardDelete_outcome : Outcome u e .handleForwardDelete := by
  by_cases hcol : e.state.cursorCol < e.state.line.length
  · exact .of_eq _ (if_pos hcol) rfl (fun h => by cases h) rfl (by simp) (by simp)
  by_cases hline : e.state.cursorLine + 1 < e.state.lines.length
  · exact .of_eq _ ((if_neg hcol).trans (if_pos hline)) rfl (fun h => by cases h) rfl (by simp) (by simp)
  · have heq : e.perform u .handleForwardDelete = { e.exitHistoryBrowsing with lastAction := none } := by
      simp only [perform, handleForwardDelete, if_neg hcol, if_neg hline]
    exact .idle ⟨by rw [heq]; rfl, Or.inr (by rw [heq]; rfl)⟩ (by rw [heq]) (Or.inl (by rw [heq]; rfl))

theorem yank_outcome : Outcome u e .yank := by
  cases hring : e.killRing.getLast? with
  | none => exact .same (by simp only [perform, yank, hring])
  | some text =>
    refine .of_eq { e.exitHistoryBrowsing.pushUndoSnapshot with
      state := e.state.insertYanked text, lastAction := some .yank } ?_ rfl (fun h => by cases h) rfl (by simp) (by simp)
    simp only [perform, yank, hring]

theorem yankPop_outcome : Outcome u e .yankPop := by
  by_cases hnone : e.lastAction ≠ some .yank ∨ e.killRing.length ≤ 1
  · exact .same (by simp only [perform, yankPop, if_pos hnone])
  · exact .of_eq _ (if_neg hnone) rfl (fun h => by cases h) rfl (by simp) (by simp)

theorem setText_outcome (text : Text) (hset : SetsOther e (.setText text)) : Outcome u e (.setText text) := by
  cases hnor : textToSet text with
  | none =>
    have heq : e.perform u (.setText text) = { e with lastAction := none }.exitHistoryBrowsing := by
      simp only [perform, setText, hnor]
    exact .idle ⟨by rw [heq]; rfl, Or.inr (by rw [heq]; rfl)⟩ (by rw [heq]; rfl) (Or.inl (by rw [heq]; rfl))
  | some normalized =>
    refine .of_eq ({ ({ e with lastAction := none }.exitHistoryBrowsing.pushUndoSnapshot) with
      pastes := ∅, pasteCounter := 0 }.setTextInternal normalized .stop) ?_ rfl (fun h => by cases h) rfl
      (by simp) (by simp)
    simp only [perform, setText, hnor, if_pos (hset normalized hnor)]

theorem insertTextAtCursor_outcome (text : Text) : Outcome u e (.insertTextAtCursor text) := by
  by_cases hnone : text = []
  · exact .same (by simp only [perform, insertTextAtCursor, if_pos hnone])
  · exact .of_eq _ (if_neg hnone) rfl (fun h => by cases h) rfl (by simp) (by simp)

theorem deleteToStartOfLine_outcome : Outcome u e .deleteToStartOfLine := by
  refine killInto_outcome (by simp) (by simp) ?_
  unfold perform deleteToStartOfLine
  dsimp only
  by_cases hcol : e.state.cursorCol > 0
  · exact Or.inr ⟨_, _, _, if_pos hcol⟩
  rw [if_neg hcol]
  by_cases hline : e.state.cursorLine > 0
  · exact Or.inr ⟨_, _, _, if_pos hline⟩
  · exact Or.inl (if_neg hline)

theorem deleteToEndOfLine_outcome : Outcome u e .deleteToEndOfLine := by
  refine killInto_outcome (by simp) (by simp) ?_
  unfold perform deleteToEndOfLine
  dsimp only
  by_cases hcol : e.state.cursorCol < e.state.line.length
  · exact Or.inr ⟨_, _, _, if_pos hcol⟩
  rw [if_neg hcol]
  by_cases hline : e.state.cursorLine + 1 < e.state.lines.length
  · exact Or.inr ⟨_, _, _, if_pos hline⟩
  · exact Or.inl (if_neg hline)

theorem deleteWordBackwards_outcome : Outcome u e .deleteWordBackwards := by
  refine killInto_outcome (by simp) (by simp) ?_
  unfold perform deleteWordBackwards
  dsimp only
  by_cases hcol : e.state.cursorCol = 0
  · rw [if_pos hcol]
    by_cases hline : e.state.cursorLine > 0
    · exact Or.inr ⟨_, _, _, if_pos hline⟩
    · exact Or.inl (if_neg hline)
  · exact Or.inr ⟨_, _, _, if_neg hcol⟩

theorem deleteWordForward_outcome : Outcome u e .deleteWordForward := by
  refine killInto_outcome (by simp) (by simp) ?_
  unfold perform deleteWordForward
  dsimp only
  by_cases hcol : e.state.cursorCol ≥ e.state.line.length
  · rw [if_pos hcol]
    by_cases hline : e.state.cursorLine + 1 < e.state.lines.length
    · exact Or.inr ⟨_, _, _, if_pos hline⟩
    · exact Or.inl (if_neg hline)
  · exact Or.inr ⟨_, _, _, if_neg hcol⟩

/-- **One operation.** It pushes the document as it was, continues a word or an excursion into the history, or leaves
the document as it is. -/
theorem perform_outcome (op : Op) (hset : SetsOther e op) : Outcome u e op := by
  cases op with
  | insertCharacter char => exact insertCharacter_outcome char
  | handlePaste pasted => exact handlePaste_outcome pasted
  | addNewLine => exact .of_eq _ rfl rfl (fun h => by cases h) rfl (by simp) (by simp)
  | handleBackspace => exact handleBackspace_outcome
  | handleForwardDelete => exact handleForwardDelete_outcome
  | deleteToStartOfLine => exact deleteToStartOfLine_outcome
  | deleteToEndOfLine => exact deleteToEndOfLine_outcome
  | deleteWordBackwards => exact deleteWordBackwards_outcome
  | deleteWordForward => exact deleteWordForward_outcome
  | yank => exact yank_outcome
  | yankPop => exact yankPop_outcome
  | navigateHistory older => exact navigateHistory_outcome older
  | setText text => exact setText_outcome text hset
  | insertTextAtCursor text => exact insertTextAtCursor_outcome text
  | move move => exact .idle ⟨rfl, Or.inl ⟨move, rfl⟩⟩ rfl (Or.inr rfl)

/-! ### Units -/

/-- What may follow without a snapshot: more of the word that is being typed, of the excursion into the history, and
idle operations. -/
def Continues (u : Unicode) (e : Editor) (ops : List Op) : Prop :=
  (e.lastAction = some .typeWord → ∃ run tail, ops = run ++ tail ∧ Along (perform u) (ContinuesWord u) e run ∧
    Along (perform u) (Idle u) (e.performAll u run) tail) ∧
  (e.lastAction ≠ some .typeWord → e.historyIndex ≠ -1 → Along (perform u) (Browses u) e ops) ∧
  (e.lastAction ≠ some .typeWord → e.historyIndex = -1 → Along (perform u) (Idle u) e ops)

/-- While a word is typed, the history is not browsed. -/
def TypesOutside (e : Editor) : Prop := e.lastAction = some .typeWord → e.exitHistoryBrowsing = e

theorem perform_typesOutside (op : Op) (h : TypesOutside e) (hset : SetsOther e op) : TypesOutside (e.perform u op) := by
  intro hword
  cases perform_outcome (u := u) op hset with
  | pushed stack typed word browsing =>
    obtain ⟨char, rfl⟩ := word.mp hword
    change (e.insertCharacter char).exitHistoryBrowsing = e.insertCharacter char
    unfold insertCharacter
    dsimp only
    split <;> rfl
  | typed char op_eq plain hlast stack =>
    subst op_eq
    change (e.insertCharacter char).exitHistoryBrowsing = e.insertCharacter char
    unfold insertCharacter
    dsimp only
    split <;> rfl
  | browsed older op_eq browsing stack word =>
    rw [word] at hword
    cases hword
  | exited same => rw [same]; rfl
  | same same =>
    rw [same] at hword ⊢
    exact h hword
  | idle idle word browsing =>
    rw [word] at hword
    cases hword

theorem idle_of_same (h : e.perform u op = e) : Idle u e op := ⟨by rw [h], Or.inr (by rw [h])⟩

theorem idle_of_exited (h : e.perform u op = e.exitHistoryBrowsing) : Idle u e op :=
  ⟨by rw [h]; rfl, Or.inr (by rw [h]; rfl)⟩

theorem along_browses (h : Along (perform u) (Idle u) e ops) : Along (perform u) (Browses u) e ops :=
  h.mono fun _ _ hidle => Or.inr hidle

theorem Continues.cons_idle (houts : TypesOutside e) (h : Continues u (e.perform u op) ops) (hidle : Idle u e op)
    (hword : (e.perform u op).lastAction ≠ some .typeWord)
    (hidx : (e.perform u op).historyIndex = -1 ∨ (e.perform u op).historyIndex = e.historyIndex) :
    Continues u e (op :: ops) := by
  have hrest : e.historyIndex = -1 → Along (perform u) (Idle u) (e.perform u op) ops := by
    intro hout
    refine h.2.2 hword ?_
    rcases hidx with hleft | hsame
    · exact hleft
    · rw [hsame, hout]
  refine ⟨fun htyping => ?_, fun _ hbrow => ⟨Or.inr hidle, ?_⟩, fun _ hout => ⟨hidle, hrest hout⟩⟩
  · have hout : e.historyIndex = -1 := by
      rw [← houts htyping]
      rfl
    exact ⟨[], op :: ops, rfl, trivial, hidle, hrest hout⟩
  · by_cases hleft : (e.perform u op).historyIndex = -1
    · exact along_browses (h.2.2 hword hleft)
    · exact h.2.1 hword hleft

theorem Outcome.oneUnit
    (typed : ∀ char, op = .insertCharacter char → isWhitespaceChar char ∨ e.lastAction ≠ some .typeWord)
    (word : (e.perform u op).lastAction = some .typeWord ↔ ∃ char, op = .insertCharacter char)
    (browsing : (e.perform u op).historyIndex ≠ -1 ↔ ∃ older, op = .navigateHistory older)
    (h : Continues u (e.perform u op) ops) : OneUnit u e (op :: ops) := by
  have hidle : (∀ char, op ≠ .insertCharacter char) → (∀ older, op ≠ .navigateHistory older) →
      Along (perform u) (Idle u) (e.perform u op) ops := by
    intro htyp hbro
    have hword : (e.perform u op).lastAction ≠ some .typeWord := fun hlast =>
      (word.mp hlast).elim htyp
    have hidx : (e.perform u op).historyIndex = -1 := by
      by_contra hne
      exact (browsing.mp hne).elim hbro
    exact h.2.2 hword hidx
  cases op with
  | insertCharacter char => exact ⟨typed char rfl, h.1 (word.mpr ⟨char, rfl⟩)⟩
  | navigateHistory older =>
    have hword : (e.perform u (.navigateHistory older)).lastAction ≠ some .typeWord := fun hlast => by
      obtain ⟨char, heq⟩ := word.mp hlast
      cases heq
    exact h.2.1 hword (browsing.mpr ⟨older, rfl⟩)
  | handlePaste pasted | addNewLine | handleBackspace | handleForwardDelete | deleteToStartOfLine
  | deleteToEndOfLine | deleteWordBackwards | deleteWordForward | yank | yankPop | setText text
  | insertTextAtCursor text | move move => exact hidle (by simp) (by simp)

/-- **Operations are units.** What continues the last unit, and then one unit for each snapshot that is pushed. -/
theorem units_of_ops (ops : List Op) (houts : TypesOutside e) (hset : Along (perform u) SetsOther e ops) :
    ∃ rest units, ops = rest ++ units.flatten ∧ Continues u e rest ∧ Units u (e.performAll u rest) units ∧
      (e.performAll u ops).undoStack = e.undoStack ++ snapshotsBefore u (e.performAll u rest) units := by
  induction ops generalizing e with
  | nil =>
    refine ⟨[], [], rfl, ⟨fun _ => ⟨[], [], rfl, trivial, trivial⟩, fun _ _ => trivial, fun _ _ => trivial⟩, trivial, ?_⟩
    exact (append_nil _).symm
  | cons op ops ih =>
    obtain ⟨hop, hops⟩ := hset
    obtain ⟨rest, units, hpts, hcont, hun, hsta⟩ := ih (perform_typesOutside op houts hop) hops
    -- the operation before what continues
    have hext : Continues u e (op :: rest) → (e.perform u op).undoStack = e.undoStack →
        ∃ rest units, op :: ops = rest ++ units.flatten ∧ Continues u e rest ∧ Units u (e.performAll u rest) units ∧
          (e.performAll u (op :: ops)).undoStack = e.undoStack ++ snapshotsBefore u (e.performAll u rest) units := by
      intro hcons hsame
      refine ⟨op :: rest, units, by rw [hpts, cons_append], hcons, hun, ?_⟩
      rw [← hsame]
      exact hsta
    cases perform_outcome (u := u) op hop with
    | pushed stack typed word browsing =>
      refine ⟨[], (op :: rest) :: units, ?_, ?_, ⟨Outcome.oneUnit typed word browsing hcont, hun⟩, ?_⟩
      · rw [hpts]
        rfl
      · exact ⟨fun _ => ⟨[], [], rfl, trivial, trivial⟩, fun _ _ => trivial, fun _ _ => trivial⟩
      · have hpus : (e.performAll u (op :: ops)).undoStack =
            (e.perform u op).undoStack ++ snapshotsBefore u ((e.perform u op).performAll u rest) units := hsta
        rw [hpus, stack, append_assoc]
        rfl
    | typed char op_eq plain word stack =>
      subst op_eq
      refine hext ⟨fun _ => ?_, fun hne => absurd word hne, fun hne => absurd word hne⟩ stack
      obtain ⟨run, tail, hrest, hrun, htail⟩ := hcont.1 (by
        change (e.insertCharacter char).lastAction = _
        unfold insertCharacter
        dsimp only)
      exact ⟨_ :: run, tail, by rw [hrest, cons_append], ⟨Or.inl ⟨char, rfl, plain⟩, hrun⟩, htail⟩
    | browsed older op_eq hbrow stack word =>
      have hword : (e.perform u op).lastAction ≠ some .typeWord := by
        rw [word]
        exact fun h => by cases h
      have hpl : e.lastAction ≠ some .typeWord := by
        intro htyping
        have hidx := congrArg Editor.historyIndex (houts htyping)
        exact hbrow hidx.symm
      refine hext ⟨fun htyping => absurd htyping hpl, fun _ _ => ⟨Or.inl ⟨older, op_eq⟩, ?_⟩,
        fun _ hout => absurd hout hbrow⟩ stack
      by_cases hleft : (e.perform u op).historyIndex = -1
      · exact along_browses (hcont.2.2 hword hleft)
      · exact hcont.2.1 hword hleft
    | exited same =>
      refine hext ?_ (by rw [same]; rfl)
      by_cases htyping : e.lastAction = some .typeWord
      · have hsame : e.perform u op = e := same.trans (houts htyping)
        rw [hsame] at hcont
        obtain ⟨run, tail, hrest, hrun, htail⟩ := hcont.1 htyping
        refine ⟨fun _ => ⟨op :: run, tail, by rw [hrest, cons_append], ⟨Or.inr hsame, by rwa [hsame]⟩, ?_⟩,
          fun hne => absurd htyping hne, fun hne => absurd htyping hne⟩
        change Along (perform u) (Idle u) ((e.perform u op).performAll u run) tail
        rwa [hsame]
      · exact hcont.cons_idle houts (idle_of_exited same) (by rw [same]; exact htyping) (Or.inl (by rw [same]; rfl))
    | same hsame =>
      refine hext ?_ (by rw [hsame])
      rw [hsame] at hcont
      refine ⟨fun htyping => ?_, fun hne hbrow => ⟨Or.inr (idle_of_same hsame), ?_⟩,
        fun hne hout => ⟨idle_of_same hsame, ?_⟩⟩
      · obtain ⟨run, tail, hrest, hrun, htail⟩ := hcont.1 htyping
        refine ⟨op :: run, tail, by rw [hrest, cons_append], ⟨Or.inr hsame, by rwa [hsame]⟩, ?_⟩
        change Along (perform u) (Idle u) ((e.perform u op).performAll u run) tail
        rwa [hsame]
      · rw [hsame]
        exact hcont.2.1 hne hbrow
      · rw [hsame]
        exact hcont.2.2 hne hout
    | idle hidle word browsing =>
      exact hext (hcont.cons_idle houts hidle (by rw [word]; exact fun h => by cases h) browsing) hidle.1

/-! ### Undo -/

theorem undo_of_push {stack : List EditorSnapshot} {last : EditorSnapshot} (h : e.undoStack = stack ++ [last]) :
    e.undo.snapshot = last ∧ e.undo.undoStack = stack := by
  have hlast : e.exitHistoryBrowsing.undoStack.getLast? = some last := by
    change e.undoStack.getLast? = some last
    rw [h, List.getLast?_concat]
  unfold undo
  dsimp only
  rw [hlast]
  refine ⟨rfl, ?_⟩
  change e.undoStack.dropLast = stack
  rw [h, dropLast_concat]

theorem undo_of_nil (h : e.undoStack = []) : e.undo.snapshot = e.snapshot ∧ e.undo.undoStack = [] := by
  have hnone : e.exitHistoryBrowsing.undoStack.getLast? = none := by
    change e.undoStack.getLast? = none
    rw [h]
    rfl
  unfold undo
  dsimp only
  rw [hnone]
  exact ⟨rfl, h⟩

theorem performAll_append (a b : List Op) : e.performAll u (a ++ b) = (e.performAll u a).performAll u b := foldl_append

theorem length_snapshotsBefore (units : List (List Op)) : (snapshotsBefore u e units).length = units.length := by
  induction units generalizing e with
  | nil => rfl
  | cons unit units ih => exact congrArg (· + 1) ih

theorem getElem?_snapshotsBefore (units : List (List Op)) {i : ℕ} (h : i < units.length) :
    (snapshotsBefore u e units)[i]? = some (e.performAll u (units.take i).flatten).snapshot := by
  induction units generalizing e i with
  | nil => cases h
  | cons unit units ih =>
    cases i with
    | zero => rfl
    | succ i =>
      rw [length_cons] at h
      rw [snapshotsBefore, List.getElem?_cons_succ, ih (by omega), take_succ_cons, flatten_cons, performAll_append]

/-- **Undo walks back.** Each undo takes the last snapshot that is left. -/
theorem undo_iterate {start : Editor} {units : List (List Op)} (hsta : e.undoStack = snapshotsBefore u start units)
    (hsna : e.snapshot = (start.performAll u units.flatten).snapshot) (k : ℕ) :
    (undo^[k] e).snapshot = (start.performAll u (units.take (units.length - k)).flatten).snapshot ∧
      (undo^[k] e).undoStack = (snapshotsBefore u start units).take (units.length - k) := by
  have hlen : (snapshotsBefore u start units).length = units.length := length_snapshotsBefore units
  induction k with
  | zero =>
    rw [Nat.sub_zero, take_length, ← hlen, take_length]
    exact ⟨hsna, hsta⟩
  | succ k ih =>
    obtain ⟨hsh, hleft⟩ := ih
    rw [Function.iterate_succ_apply']
    by_cases hmore : k < units.length
    · have hlt : units.length - (k + 1) < units.length := by omega
      have hpus : (undo^[k] e).undoStack = (snapshotsBefore u start units).take (units.length - (k + 1)) ++
          [(start.performAll u (units.take (units.length - (k + 1))).flatten).snapshot] := by
        have hget := getElem?_snapshotsBefore (u := u) (e := start) units hlt
        have hsucc : units.length - k = units.length - (k + 1) + 1 := by omega
        rw [hleft, hsucc, take_add_one, hget]
        rfl
      exact undo_of_push hpus
    · have hzero : units.length - k = 0 := by omega
      have hzero' : units.length - (k + 1) = 0 := by omega
      rw [hzero] at hsh hleft
      rw [hzero', ← hsh]
      exact undo_of_nil hleft

theorem snapshot_idle_empty (hemp : e.state = ⟨[[]], 0, 0⟩)
    (h : Along (perform u) (Idle u) e ops) : (e.performAll u ops).snapshot = e.snapshot := by
  induction ops generalizing e with
  | nil => rfl
  | cons op ops ih =>
    obtain ⟨hidle, hops⟩ := h
    have hsame : (e.perform u op).snapshot = e.snapshot := by
      rcases hidle.2 with ⟨move, rfl⟩ | hsame
      · have hmove : e.moveTarget u move = (0, 0) := by
          cases move with
          | place line col =>
            simp only [moveTarget, hemp]
            split
            · rename_i hin
              obtain ⟨hline, hcol⟩ := hin
              have hzero : line = 0 := by simpa using hline
              subst hzero
              have hcol' : col = 0 := by simpa using hcol
              rw [hcol']
            · rfl
          | left => simp [moveTarget, hemp]
          | right => simp [moveTarget, hemp, EditorState.line]
          | lineStart => simp [moveTarget, hemp]
          | lineEnd => simp [moveTarget, hemp, EditorState.line]
          | wordLeft => simp [moveTarget, hemp]
          | wordRight => simp [moveTarget, hemp, EditorState.line]
        simp only [perform, moveCursor, hmove, snapshot, hemp]
      · exact hsame
    have hst : (e.perform u op).state = ⟨[[]], 0, 0⟩ := (congrArg EditorSnapshot.state hsame).trans hemp
    exact (ih hst hops).trans hsame

theorem Units.ne_nil {units : List (List Op)} (h : Units u e units) : ∀ unit ∈ units, unit ≠ [] := by
  induction units generalizing e with
  | nil => exact fun unit hunit => by cases hunit
  | cons unit units ih =>
    obtain ⟨hunit, hun⟩ := h
    refine forall_mem_cons.mpr ⟨?_, ih hun⟩
    rintro rfl
    exact hunit

/-- **Undo goes back by editing units.** The operations since a submission are idle ones and then editing units. Each
undo restores the document as it was before one more unit, and when none is left, the document of the submission. -/
theorem undo_walks_back (u : Unicode) (e : Editor) (ops : List Op)
    (hset : Along (perform u) SetsOther e.submitValue ops) :
    ∃ idle units, ops = idle ++ units.flatten ∧ (∀ unit ∈ units, unit ≠ []) ∧
      Along (perform u) (Idle u) e.submitValue idle ∧ Units u (e.submitValue.performAll u idle) units ∧
      (∀ k, (undo^[k] (e.submitValue.performAll u ops)).undoStack.length = units.length - k ∧
        (undo^[k] (e.submitValue.performAll u ops)).snapshot =
          (e.submitValue.performAll u (idle ++ (units.take (units.length - k)).flatten)).snapshot) ∧
      ∀ k, units.length ≤ k → (undo^[k] (e.submitValue.performAll u ops)).snapshot = e.submitValue.snapshot := by
  obtain ⟨idle, units, hpts, hcont, hun, hsta⟩ := units_of_ops (u := u) ops (fun h => by cases h) hset
  have hidle : Along (perform u) (Idle u) e.submitValue idle := hcont.2.2 (fun h => by cases h) rfl
  have hsh : (e.submitValue.performAll u ops).snapshot =
      ((e.submitValue.performAll u idle).performAll u units.flatten).snapshot := by
    rw [hpts, performAll_append]
  have hwalk := undo_iterate (hsta.trans (nil_append _)) hsh
  refine ⟨idle, units, hpts, hun.ne_nil, hidle, hun, fun k => ⟨?_, ?_⟩, fun k hk => ?_⟩
  · rw [(hwalk k).2, length_take, length_snapshotsBefore]
    omega
  · rw [(hwalk k).1, performAll_append]
  · have hzero : units.length - k = 0 := by omega
    rw [(hwalk k).1, hzero, take_zero]
    exact snapshot_idle_empty rfl hidle

/-- Two words, a move, a deletion, a paste, the history and a text that is set. -/
def someOps : List Op :=
  [.yank, .insertCharacter [0x61], .insertCharacter [0x62], .insertCharacter [0x20], .insertCharacter [0x63],
    .move .left, .handleBackspace, .handlePaste [0x64, 0x0D, 0x65], .navigateHistory true, .navigateHistory true,
    .setText [0x66], .addNewLine, .deleteToStartOfLine]

theorem undo_walks_back_someOps : ∃ (idle : List Op) (units : List (List Op)), someOps = idle ++ units.flatten ∧
    ∀ k, units.length ≤ k → (undo^[k] (({ history := [[0x67]] } : Editor).submitValue.performAll basicUnicode
      someOps)).snapshot = ({} : Editor).snapshot := by
  obtain ⟨idle, units, hpts, -, -, -, -, hend⟩ :=
    undo_walks_back basicUnicode { history := [[0x67]] } someOps (by decide +kernel)
  exact ⟨idle, units, hpts, hend⟩

/-! ### The history of prompts -/

def EditorSnapshot.document (d : EditorSnapshot) : List Text × OrdMap ℤ Text × ℤ := (d.state.lines, d.pastes, d.pasteCounter)

/-- What is shown while the history is browsed, where `start` is the editor before: its document at index `-1`, and a
prompt with the draft of that document otherwise. -/
def Browsed (start e : Editor) : Prop :=
  e.history = start.history ∧ (e.historyIndex = -1 ∧ e.snapshot.document = start.snapshot.document ∨
    ∃ (i : ℕ) (prompt : Text) (draft : EditorSnapshot), e.historyIndex = i ∧ start.history[i]? = some prompt ∧
      e.state.lines = splitLines prompt ∧ e.historyDraft = some draft ∧ draft.document = start.snapshot.document)

theorem Browsed.navigateHistory {start : Editor} (h : Browsed start e) {direction : ℤ}
    (hdir : direction = -1 ∨ direction = 1) : Browsed start (e.navigateHistory direction) := by
  obtain ⟨hhist, hshown⟩ := h
  unfold Editor.navigateHistory
  dsimp only
  by_cases hnone : e.history = [] ∨ e.historyIndex - direction < -1 ∨ e.historyIndex - direction ≥ e.history.length
  · rw [if_pos hnone]
    exact ⟨hhist, hshown⟩
  rw [if_neg hnone]
  rw [not_or, not_or] at hnone
  by_cases hback : e.historyIndex - direction = -1
  · rcases hshown with ⟨hidx, -⟩ | ⟨i, prompt, draft, hidx, -, -, hdraft, hdoc⟩
    · omega
    · rw [if_pos hback, if_neg (by omega), hdraft]
      exact ⟨hhist, .inl ⟨hback, hdoc⟩⟩
  · obtain ⟨k, hk⟩ : ∃ k : ℕ, e.historyIndex - direction = k := ⟨(e.historyIndex - direction).toNat, by omega⟩
    have hlt : k < start.history.length := by
      rw [← hhist]
      omega
    have hprompt : e.history[k]?.getD [] = start.history[k] := by
      rw [hhist, getElem?_eq_getElem hlt, Option.getD_some]
    rw [if_neg hback, hk, Int.toNat_natCast, hprompt]
    rcases hshown with ⟨hidx, hdoc⟩ | ⟨i, -, draft, hidx, -, -, hdraft, hdoc⟩
    · rw [if_pos ⟨hidx, by omega⟩]
      refine ⟨hhist, .inr ⟨k, _, e.snapshot, rfl, getElem?_eq_getElem hlt, ?_, rfl, hdoc⟩⟩
      split_ifs <;> rfl
    · rw [if_neg (by omega)]
      refine ⟨hhist, .inr ⟨k, _, draft, rfl, getElem?_eq_getElem hlt, ?_, hdraft, hdoc⟩⟩
      split_ifs <;> rfl

/-- **Browsing keeps the draft.** However the history is walked through and the cursor is moved, each prompt is shown
as it was entered, and back at its end the document is the one from before. -/
theorem browsing_keeps_draft (u : Unicode) (e : Editor) (ops : List (Bool ⊕ CursorMove)) :
    Browsed e (e.exitHistoryBrowsing.performAll u (ops.map (Sum.elim .navigateHistory .move))) := by
  induction ops using reverseRecOn with
  | nil => exact ⟨rfl, .inl ⟨rfl, rfl⟩⟩
  | append_singleton ops op ih =>
    rw [map_append, performAll_append]
    rcases op with older | move
    · apply ih.navigateHistory
      cases older
      · exact .inr rfl
      · exact .inl rfl
    · exact ih

end Editor
end EasyPi.Tui
