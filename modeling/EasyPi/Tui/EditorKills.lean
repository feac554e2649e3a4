/-
# Kills and yanks

A kill takes text from one side of the cursor into the kill ring. Consecutive kills join what they take into one entry,
so that a yank puts all of it back; but a word kill that takes nothing makes the next kill extend an entry that is older
than the run. Yank-pops show one entry after the other at the same place.
-/
import EasyPi.Tui.EditorPlace

namespace EasyPi.Tui

open List
namespace Editor

def IsKill : Op → Prop
  | .deleteToStartOfLine | .deleteToEndOfLine | .deleteWordBackwards | .deleteWordForward => True
  | _ => False

instance : DecidablePred IsKill := fun op => by
  unfold IsKill
  split <;> infer_instance

/-- A kill at the end of the document that it deletes towards. -/
def AtEdge (s : EditorState) : Op → Prop
  | .deleteToStartOfLine | .deleteWordBackwards => s.cursorCol = 0 ∧ s.cursorLine = 0
  | .deleteToEndOfLine | .deleteWordForward => s.line.length ≤ s.cursorCol ∧ s.lines.length ≤ s.cursorLine + 1
  | _ => False

instance (s : EditorState) : DecidablePred (AtEdge s) := fun op => by
  unfold AtEdge
  split <;> infer_instance

/-- A kill of a word that has no extent. -/
def EmptyWord (u : Unicode) (e : Editor) : Op → Prop
  | .deleteWordBackwards => 0 < e.state.cursorCol ∧
      findWordBackward (e.segment u .word) e.state.line e.state.cursorCol = e.state.cursorCol
  | .deleteWordForward => e.state.cursorCol < e.state.line.length ∧
      findWordForward (e.segment u .word) e.state.line e.state.cursorCol = e.state.cursorCol
  | _ => False

instance (u : Unicode) (e : Editor) : DecidablePred (EmptyWord u e) := fun op => by
  unfold EmptyWord
  split <;> infer_instance

/-- The first kill that is not at an edge of the document is not one of an empty word. -/
def FirstKillDeletes (u : Unicode) (e : Editor) : List Op → Prop
  | [] => True
  | op :: ops => if AtEdge e.state op then FirstKillDeletes u e ops else ¬ EmptyWord u e op

instance decidableFirstKillDeletes (u : Unicode) (e : Editor) : DecidablePred (FirstKillDeletes u e)
  | [] => .isTrue trivial
  | op :: ops =>
    have : Decidable (FirstKillDeletes u e ops) := decidableFirstKillDeletes u e ops
    inferInstanceAs (Decidable (if AtEdge e.state op then FirstKillDeletes u e ops else ¬ EmptyWord u e op))

/-- A run of kills: the newest entry is what it took from the document, the other entries are as they were, and a yank
restores the lines, with the cursor behind the text. -/
def KillsAndYanks (u : Unicode) (e : Editor) (ops : List Op) : Prop :=
  ∃ left right, e.state.textBefore = (e.performAll u ops).state.textBefore ++ left ∧
    e.state.textAfter = right ++ (e.performAll u ops).state.textAfter ∧
    (e.performAll u ops).killRing = e.killRing ++ [left ++ right] ∧
    (e.performAll u ops).yank.state.lines = e.state.lines ∧
    (e.performAll u ops).yank.state.textBefore = (e.performAll u ops).state.textBefore ++ (left ++ right)

/-! ### One kill -/

inductive Kill (u : Unicode) (e : Editor) (op : Op) (c : TextCursor UInt16) : Prop where
  | edge (at_edge : AtEdge e.state op) (same : e.perform u op = e.exitHistoryBrowsing)
  | backward (inside : ¬ AtEdge e.state op) (c' : TextCursor UInt16) (text : Text)
      (killed : e.perform u op = e.killInto text true (ofCursor c')) (unbroken : c'.Unbroken lf)
      (before : c.before lf = c'.before lf ++ text) (after : c.after lf = c'.after lf)
      (empty : text = [] ↔ EmptyWord u e op)
  | forward (inside : ¬ AtEdge e.state op) (c' : TextCursor UInt16) (text : Text)
      (killed : e.perform u op = e.killInto text false (ofCursor c')) (unbroken : c'.Unbroken lf)
      (before : c.before lf = c'.before lf) (after : c.after lf = text ++ c'.after lf)
      (empty : text = [] ↔ EmptyWord u e op)

variable {u : Unicode} {e : Editor} {op : Op} {c : TextCursor UInt16}

section
variable (hst : e.state = ofCursor c) (hc : c.Unbroken lf)
include hst hc

theorem Kill.of_left {l text : Text} (hleft : c.left = l ++ text) (inside : ¬ AtEdge e.state op)
    (killed : e.perform u op = e.killInto text true (e.state.setLine (l ++ c.right) l.length))
    (empty : text = [] ↔ EmptyWord u e op) : Kill u e op c := by
  refine .backward inside { c with left := l } text ?_ ⟨?_, hc.2⟩ ?_ rfl empty
  · rw [killed, hst, setLine_ofCursor]
  · intro line hline
    rcases mem_append.mp hline with habv | hlast
    · exact hc.1 line (mem_append_left _ habv)
    · rw [mem_singleton.mp hlast]
      have hmem := hc.1 c.left (by simp)
      rw [hleft, mem_append, not_or] at hmem
      exact hmem.1
  · unfold TextCursor.before
    rw [hleft]
    exact TextCursor.joinLines_concat_append lf c.above l text

theorem Kill.of_right {r text : Text} (hrig : c.right = text ++ r) (inside : ¬ AtEdge e.state op)
    (killed : e.perform u op = e.killInto text false (e.state.setLine (c.left ++ r) c.left.length))
    (empty : text = [] ↔ EmptyWord u e op) : Kill u e op c := by
  refine .forward inside { c with right := r } text ?_ ⟨hc.1, ?_⟩ rfl ?_ empty
  · rw [killed, hst, setLine_ofCursor]
  · intro line hline
    rcases mem_cons.mp hline with rfl | hbelow
    · have hmem := hc.2 c.right (by simp)
      rw [hrig, mem_append, not_or] at hmem
      exact hmem.2
    · exact hc.2 line (mem_cons_of_mem _ hbelow)
  · unfold TextCursor.after
    rw [hrig]
    exact TextCursor.joinLines_cons_append lf text r c.below

theorem Kill.of_previous (hcol : e.state.cursorCol = 0)
    (hline : e.state.cursorLine > 0) (inside : ¬ AtEdge e.state op) (hword : ¬ EmptyWord u e op)
    (killed : e.perform u op = e.killInto [lf] true e.state.mergeWithPrevious) : Kill u e op c := by
  rw [hst] at hcol hline
  have hleft : c.left = [] := length_eq_zero_iff.mp hcol
  obtain ⟨above, previousLine, habv⟩ : ∃ above previousLine, c.above = above ++ [previousLine] :=
    ⟨_, _, (dropLast_append_getLast (length_pos_iff.mp hline)).symm⟩
  have hpla : c = ⟨above ++ [previousLine], [], c.right, c.below⟩ := by
    rw [← habv, ← hleft]
  refine .backward inside ⟨above, previousLine, c.right, c.below⟩ [lf] ?_ ⟨?_, hc.2⟩ ?_ rfl ?_
  · rw [killed, hst, hpla, mergeWithPrevious_ofCursor]
  · intro line hmem
    refine hc.1 line ?_
    rw [habv]
    exact mem_append_left _ hmem
  · unfold TextCursor.before
    rw [habv, hleft]
    exact TextCursor.joinLines_concat_nil lf (by simp)
  · exact ⟨fun h => absurd h (cons_ne_nil _ _), fun h => absurd h hword⟩

theorem Kill.of_next
    (hcol : e.state.line.length ≤ e.state.cursorCol) (hline : e.state.cursorLine + 1 < e.state.lines.length)
    (inside : ¬ AtEdge e.state op) (hword : ¬ EmptyWord u e op)
    (killed : e.perform u op = e.killInto [lf] false e.state.mergeWithNext) : Kill u e op c := by
  rw [hst, line_ofCursor, cursorCol_ofCursor, length_append] at hcol
  rw [hst, cursorLine_ofCursor, lines_ofCursor, TextCursor.lines, length_append, length_cons] at hline
  have hrig : c.right = [] := length_eq_zero_iff.mp (by omega)
  obtain ⟨nextLine, below, hbelow⟩ : ∃ nextLine below, c.below = nextLine :: below := exists_cons_of_length_pos (by omega)
  have hpla : c = ⟨c.above, c.left, [], nextLine :: below⟩ := by
    rw [← hbelow, ← hrig]
  refine .forward inside ⟨c.above, c.left, nextLine, below⟩ [lf] ?_ ⟨hc.1, ?_⟩ rfl ?_ ?_
  · rw [killed, hst, hpla, mergeWithNext_ofCursor]
  · intro line hmem
    refine hc.2 line ?_
    rw [hbelow]
    exact mem_cons_of_mem _ hmem
  · unfold TextCursor.after
    rw [hrig, hbelow, joinLines_cons lf _ (cons_ne_nil _ _)]
    rfl
  · exact ⟨fun h => absurd h (cons_ne_nil _ _), fun h => absurd h hword⟩

theorem deleteToStartOfLine_kill : Kill u e .deleteToStartOfLine c := by
  by_cases hcol : e.state.cursorCol > 0
  · refine .of_left hst hc (nil_append _).symm (fun h => ?_) ?_ ⟨fun h => ?_, fun h => h.elim⟩
    · exact absurd h.1 (by omega)
    · refine (if_pos hcol).trans ?_
      rw [hst, before_ofCursor, after_ofCursor]
      rfl
    · rw [hst, cursorCol_ofCursor, h] at hcol
      exact absurd hcol (lt_irrefl 0)
  by_cases hline : e.state.cursorLine > 0
  · refine .of_previous hst hc (by omega) hline (fun h => ?_) (fun h => h.elim) ((if_neg hcol).trans (if_pos hline))
    exact absurd h.2 (by omega)
  · exact .edge ⟨by omega, by omega⟩ ((if_neg hcol).trans (if_neg hline))

theorem deleteToEndOfLine_kill : Kill u e .deleteToEndOfLine c := by
  by_cases hcol : e.state.cursorCol < e.state.line.length
  · refine .of_right hst hc (append_nil _).symm (fun h => ?_) ?_ ⟨fun h => ?_, fun h => h.elim⟩
    · exact absurd h.1 (by omega)
    · refine (if_pos hcol).trans ?_
      rw [hst, before_ofCursor, after_ofCursor, append_nil]
      rfl
    · rw [hst, cursorCol_ofCursor, line_ofCursor, h, append_nil] at hcol
      exact absurd hcol (lt_irrefl _)
  by_cases hline : e.state.cursorLine + 1 < e.state.lines.length
  · refine .of_next hst hc (by omega) hline (fun h => ?_) (fun h => h.elim) ((if_neg hcol).trans (if_pos hline))
    exact absurd h.2 (by omega)
  · exact .edge ⟨by omega, by omega⟩ ((if_neg hcol).trans (if_neg hline))

theorem deleteWordBackwards_kill : Kill u e .deleteWordBackwards c := by
  by_cases hcol : e.state.cursorCol = 0
  · have hword : ¬ EmptyWord u e .deleteWordBackwards := fun h => by
      have hpos := h.1
      omega
    by_cases hline : e.state.cursorLine > 0
    · refine .of_previous hst hc hcol hline (fun h => ?_) hword ((if_pos hcol).trans (if_pos hline))
      exact absurd h.2 (by omega)
    · exact .edge ⟨hcol, by omega⟩ ((if_pos hcol).trans (if_neg hline))
  · have hle := findWordBackward_le (e.segment u .word) e.state.line e.state.cursorCol
    generalize hfrom : findWordBackward (e.segment u .word) e.state.line e.state.cursorCol = deleteFrom at hle
    have hcol' : e.state.cursorCol = c.left.length := by rw [hst, cursorCol_ofCursor]
    refine .of_left hst hc (take_append_drop deleteFrom c.left).symm (fun h => hcol h.1) ?_ ?_
    · refine (if_neg hcol).trans ?_
      have hlen : (c.left.take deleteFrom).length = deleteFrom := by
        rw [length_take]
        omega
      have htext : slice e.state.line deleteFrom e.state.cursorCol = c.left.drop deleteFrom := by
        rw [slice, hst, line_ofCursor, cursorCol_ofCursor, take_left]
      have hline : e.state.line.take deleteFrom = c.left.take deleteFrom := by
        rw [hst, line_ofCursor, take_append_of_le_length (by omega)]
      rw [hfrom, htext, hline, hlen, hst, after_ofCursor]
    · rw [drop_eq_nil_iff]
      unfold EmptyWord
      dsimp only
      rw [hfrom]
      constructor
      · intro h
        exact ⟨by omega, by omega⟩
      · intro h
        omega

theorem deleteWordForward_kill : Kill u e .deleteWordForward c := by
  by_cases hcol : e.state.cursorCol ≥ e.state.line.length
  · have hword : ¬ EmptyWord u e .deleteWordForward := fun h => by
      have hlt := h.1
      omega
    by_cases hline : e.state.cursorLine + 1 < e.state.lines.length
    · refine .of_next hst hc hcol hline (fun h => ?_) hword ((if_pos hcol).trans (if_pos hline))
      exact absurd h.2 (by omega)
    · exact .edge ⟨hcol, by omega⟩ ((if_pos hcol).trans (if_neg hline))
  · have hle := le_findWordForward (e.segment u .word) e.state.line e.state.cursorCol (by omega)
    generalize hto : findWordForward (e.segment u .word) e.state.line e.state.cursorCol = deleteTo at hle
    have hcol' : e.state.cursorCol = c.left.length := by rw [hst, cursorCol_ofCursor]
    have hlen : e.state.line.length = c.left.length + c.right.length := by
      rw [hst, line_ofCursor, length_append]
    obtain ⟨count, rfl⟩ : ∃ count, deleteTo = c.left.length + count := ⟨deleteTo - c.left.length, by omega⟩
    refine .of_right hst hc (take_append_drop count c.right).symm (fun h => hcol h.1) ?_ ?_
    · refine (if_neg hcol).trans ?_
      have htext : slice e.state.line e.state.cursorCol (c.left.length + count) = c.right.take count := by
        rw [slice, hst, line_ofCursor, cursorCol_ofCursor, take_length_add_append, drop_left]
      have hline : e.state.line.drop (c.left.length + count) = c.right.drop count := by
        rw [hst, line_ofCursor, drop_length_add_append]
      rw [hto, htext, hline, hst, before_ofCursor, cursorCol_ofCursor]
    · rw [take_eq_nil_iff]
      unfold EmptyWord
      dsimp only
      rw [hto]
      have hrig : c.right ≠ [] := fun hnil => by
        rw [hnil, length_nil] at hlen
        omega
      constructor
      · intro h
        have hzero : count = 0 := h.resolve_right hrig
        exact ⟨by omega, by omega⟩
      · intro h
        exact Or.inl (by omega)

/-- **One kill.** It takes text from one side of the cursor, or does nothing at the edge of the document. -/
theorem kill_cases (hop : IsKill op) : Kill u e op c := by
  cases op with
  | deleteToStartOfLine => exact deleteToStartOfLine_kill hst hc
  | deleteToEndOfLine => exact deleteToEndOfLine_kill hst hc
  | deleteWordBackwards => exact deleteWordBackwards_kill hst hc
  | deleteWordForward => exact deleteWordForward_kill hst hc
  | _ => exact hop.elim

end

/-! ### Runs of kills -/

/-- What was taken is the newest entry, behind the entries of a ring, unless it is nothing yet. -/
def TakenInto (ring : List Text) (taken : Text) (e : Editor) : Prop :=
  taken ≠ [] ∧ e.killRing = ring ++ [taken] ∧ e.lastAction = some .kill ∨
    taken = [] ∧ e.killRing = ring ∧ (e.lastAction ≠ some .kill ∨ ring = [])

/-- What a run of kills knows, from a place and a kill ring on: it took texts from both sides of the cursor. -/
structure KillRun (ring : List Text) (start : TextCursor UInt16) (e : Editor) (c : TextCursor UInt16)
    (left right : Text) : Prop where
  state : e.state = ofCursor c
  unbroken : c.Unbroken lf
  before : start.before lf = c.before lf ++ left
  after : start.after lf = right ++ c.after lf
  entry : TakenInto ring (left ++ right) e

theorem pushKill_nil (ring : List Text) (prepended accumulate : Bool) : pushKill ring [] prepended accumulate = ring :=
  if_pos rfl

variable {ring : List Text} {text : Text}

theorem pushKill_new (htext : text ≠ []) (prepended : Bool) {accumulate : Bool}
    (h : accumulate = false ∨ ring = []) : pushKill ring text prepended accumulate = ring ++ [text] := by
  unfold pushKill
  rw [if_neg htext]
  rcases h with rfl | rfl
  · split <;> rfl
  · rfl

theorem pushKill_accumulate (ring : List Text) (text entry : Text) (prepended : Bool) :
    pushKill (ring ++ [entry]) text prepended true = ring ++ [if prepended then text ++ entry else entry ++ text] := by
  unfold pushKill
  by_cases htext : text = []
  · subst htext
    rw [if_pos rfl]
    cases prepended <;> simp
  · rw [if_neg htext, List.getLast?_concat, dropLast_concat]
    rfl

theorem killRing_killInto (text : Text) (prepended : Bool) (state : EditorState) :
    (e.killInto text prepended state).killRing = pushKill e.killRing text prepended (e.lastAction = some .kill) := rfl

theorem join_ne_nil {taken text : Text} (prepended : Bool) (h : taken ≠ [] ∨ text ≠ []) :
    (if prepended then text ++ taken else taken ++ text) ≠ [] := by
  cases prepended <;> simp only [Bool.false_eq_true, if_false, if_true, ne_eq, append_eq_nil_iff] <;> tauto

theorem TakenInto.killInto {taken : Text} (h : TakenInto ring taken e) (text : Text)
    (prepended : Bool) (htext : taken ≠ [] ∨ ring = [] ∨ text ≠ []) (state : EditorState) :
    TakenInto ring (if prepended then text ++ taken else taken ++ text) (e.killInto text prepended state) := by
  rcases h with ⟨hne, hkil, hlast⟩ | ⟨rfl, hkil, hfr⟩
  · refine Or.inl ⟨join_ne_nil prepended (Or.inl hne), ?_, rfl⟩
    rw [killRing_killInto, hkil, hlast, decide_eq_true rfl, pushKill_accumulate]
  · have hjoi : (if prepended then text ++ [] else [] ++ text) = text := by
      rw [append_nil, nil_append, ite_self]
    rw [hjoi]
    by_cases hemp : text = []
    · have hnone : ring = [] := (htext.resolve_left (not_not_intro rfl)).resolve_right (not_not_intro hemp)
      exact Or.inr ⟨hemp, by rw [killRing_killInto, hemp, pushKill_nil, hkil], Or.inr hnone⟩
    · refine Or.inl ⟨hemp, ?_, rfl⟩
      rw [killRing_killInto, pushKill_new hemp prepended ?_, hkil]
      rcases hfr with hoth | hnone
      · exact Or.inl (decide_eq_false hoth)
      · exact Or.inr (hkil.trans hnone)

/-- **A kill joins the run**, unless it is one of an empty word before anything was taken. -/
theorem killRun_step {start : TextCursor UInt16} {left right : Text}
    (h : KillRun ring start e c left right) (hop : IsKill op)
    (hdel : left ++ right ≠ [] ∨ ring = [] ∨ AtEdge e.state op ∨ ¬ EmptyWord u e op) :
    ∃ c' left' right', KillRun ring start (e.perform u op) c' left' right' ∧ (left' ++ right' ≠ [] ∨ ring = [] ∨
        left ++ right = [] ∧ AtEdge e.state op ∧ e.perform u op = e.exitHistoryBrowsing) := by
  have htak : ∀ {text : Text}, ¬ AtEdge e.state op → (text = [] ↔ EmptyWord u e op) →
      left ++ right ≠ [] ∨ ring = [] ∨ text ≠ [] := by
    intro text hins hemp
    rcases hdel with hne | hnone | hedge | hword
    · exact Or.inl hne
    · exact Or.inr (Or.inl hnone)
    · exact absurd hedge hins
    · exact Or.inr (Or.inr (mt hemp.mp hword))
  cases kill_cases (u := u) h.state h.unbroken hop with
  | edge at_edge same =>
    refine ⟨c, left, right, ?_, ?_⟩
    · rw [same]
      exact ⟨h.state, h.unbroken, h.before, h.after, h.entry⟩
    · by_cases hnil : left ++ right = []
      · exact Or.inr (Or.inr ⟨hnil, at_edge, same⟩)
      · exact Or.inl hnil
  | backward inside c' text killed unbroken before after empty =>
    have htext := htak inside empty
    have hent := h.entry.killInto text true htext (ofCursor c')
    rw [← killed, if_pos rfl, ← append_assoc] at hent
    refine ⟨c', text ++ left, right, ⟨by rw [killed]; rfl, unbroken, ?_, ?_, hent⟩, ?_⟩
    · rw [h.before, before, append_assoc]
    · rw [h.after, after]
    · rw [append_assoc]
      rcases htext with hne | hnone | hne
      · exact Or.inl (join_ne_nil true (Or.inl hne))
      · exact Or.inr (Or.inl hnone)
      · exact Or.inl (join_ne_nil true (Or.inr hne))
  | forward inside c' text killed unbroken before after empty =>
    have htext := htak inside empty
    have hent := h.entry.killInto text false htext (ofCursor c')
    rw [← killed, if_neg Bool.false_ne_true, append_assoc] at hent
    refine ⟨c', left, right ++ text, ⟨by rw [killed]; rfl, unbroken, ?_, ?_, hent⟩, ?_⟩
    · rw [h.before, before]
    · rw [h.after, after, append_assoc]
    · rw [← append_assoc]
      rcases htext with hne | hnone | hne
      · exact Or.inl (join_ne_nil false (Or.inl hne))
      · exact Or.inr (Or.inl hnone)
      · exact Or.inl (join_ne_nil false (Or.inr hne))

variable (ops : List Op)

theorem firstKillDeletes_exitHistoryBrowsing :
    FirstKillDeletes u e.exitHistoryBrowsing ops ↔ FirstKillDeletes u e ops := by
  induction ops with
  | nil => exact Iff.rfl
  | cons op ops ih =>
    unfold FirstKillDeletes
    by_cases hedge : AtEdge e.state op
    · rw [if_pos hedge]
      exact (iff_of_eq (if_pos hedge)).trans ih
    · rw [if_neg hedge]
      exact iff_of_eq (if_neg hedge)

/-- **A run of kills takes one text**, when it starts with a kill that takes something. -/
theorem killRun_run {start : TextCursor UInt16} (ops : List Op) {left right : Text}
    (h : KillRun ring start e c left right) (hops : ∀ op ∈ ops, IsKill op)
    (hdel : left ++ right ≠ [] ∨ ring = [] ∨ FirstKillDeletes u e ops) :
    ∃ c' left' right', KillRun ring start (e.performAll u ops) c' left' right' := by
  induction ops generalizing e c left right with
  | nil => exact ⟨c, left, right, h⟩
  | cons op ops ih =>
    obtain ⟨hop, hops⟩ := forall_mem_cons.mp hops
    have hstep : left ++ right ≠ [] ∨ ring = [] ∨ AtEdge e.state op ∨ ¬ EmptyWord u e op := by
      refine hdel.imp_right (Or.imp_right fun hfst => ?_)
      unfold FirstKillDeletes at hfst
      split at hfst
      · exact Or.inl ‹_›
      · exact Or.inr hfst
    obtain ⟨c', left', right', hrun, hnext⟩ := killRun_step (u := u) h hop hstep
    refine ih hrun hops ?_
    rcases hnext with hne | hnone | ⟨hnil, hedge, hsame⟩
    · exact Or.inl hne
    · exact Or.inr (Or.inl hnone)
    · refine Or.inr ((hdel.resolve_left (not_not_intro hnil)).imp_right fun hfst => ?_)
      unfold FirstKillDeletes at hfst
      rw [if_pos hedge] at hfst
      rw [hsame]
      exact (firstKillDeletes_exitHistoryBrowsing ops).mpr hfst

theorem kill_extends (hwell : e.state.WellFormed) (hlast : e.lastAction = some .kill) (hring : e.killRing ≠ [])
    (hop : IsKill op) : (e.perform u op).state.WellFormed ∧ (e.perform u op).lastAction = some .kill ∧
      (e.perform u op).killRing.length = e.killRing.length := by
  obtain ⟨c, hc, hst⟩ := wellFormed_iff.mp hwell
  have hext : ∀ (text : Text) (prepended : Bool) (state : EditorState),
      (e.killInto text prepended state).killRing.length = e.killRing.length := by
    intro text prepended state
    rw [killRing_killInto, hlast, decide_eq_true rfl, ← dropLast_append_getLast hring, pushKill_accumulate,
      length_append, length_append]
    rfl
  cases kill_cases (u := u) hst hc hop with
  | edge at_edge same =>
    rw [same]
    exact ⟨hwell, hlast, rfl⟩
  | backward inside c' text killed unbroken =>
    rw [killed]
    exact ⟨wellFormed_iff.mpr ⟨c', unbroken, rfl⟩, rfl, hext text true _⟩
  | forward inside c' text killed unbroken =>
    rw [killed]
    exact ⟨wellFormed_iff.mpr ⟨c', unbroken, rfl⟩, rfl, hext text false _⟩

theorem kills_extend (hwell : e.state.WellFormed) (hlast : e.lastAction = some .kill)
    (hring : e.killRing ≠ []) (hops : ∀ op ∈ ops, IsKill op) :
    (e.performAll u ops).killRing.length = e.killRing.length := by
  induction ops generalizing e with
  | nil => rfl
  | cons op ops ih =>
    obtain ⟨hop, hops⟩ := forall_mem_cons.mp hops
    obtain ⟨hwell', hlast', hlen⟩ := kill_extends (u := u) hwell hlast hring hop
    have hring' : (e.perform u op).killRing ≠ [] := by
      rw [← length_pos_iff, hlen]
      exact length_pos_iff.mpr hring
    exact (ih hwell' hlast' hring' hops).trans hlen

/-- **The entry before the run is extended**, when the run starts with a kill of an empty word. -/
theorem kills_extend_older (hwell : e.state.WellFormed) (hring : e.killRing ≠ [])
    (hops : ∀ op ∈ ops, IsKill op) (hdel : ¬ FirstKillDeletes u e ops) :
    (e.performAll u ops).killRing.length = e.killRing.length := by
  induction ops generalizing e with
  | nil => exact absurd trivial hdel
  | cons op ops ih =>
    obtain ⟨hop, hops⟩ := forall_mem_cons.mp hops
    obtain ⟨c, hc, hst⟩ := wellFormed_iff.mp hwell
    unfold FirstKillDeletes at hdel
    have hemp : ∀ (text : Text) (prepended : Bool) (c' : TextCursor UInt16), c'.Unbroken lf → text = [] →
        e.perform u op = e.killInto text prepended (ofCursor c') →
        (e.performAll u (op :: ops)).killRing.length = e.killRing.length := by
      intro text prepended c' unbroken hnil killed
      have hring' : (e.perform u op).killRing = e.killRing := by
        rw [killed, killRing_killInto, hnil, pushKill_nil]
      have hwell' : (e.perform u op).state.WellFormed := by
        rw [killed]
        exact wellFormed_iff.mpr ⟨c', unbroken, rfl⟩
      have hlast' : (e.perform u op).lastAction = some .kill := by
        rw [killed]
        rfl
      have hrest := kills_extend (u := u) ops hwell' hlast' (hring' ▸ hring) hops
      rw [hring'] at hrest
      exact hrest
    cases kill_cases (u := u) hst hc hop with
    | edge at_edge same =>
      rw [if_pos at_edge] at hdel
      have hrest := ih (e := e.exitHistoryBrowsing) hwell hring hops
        (mt (firstKillDeletes_exitHistoryBrowsing ops).mp hdel)
      rw [← same] at hrest
      exact hrest.trans (by rw [same]; rfl)
    | backward inside c' text killed unbroken before after empty =>
      rw [if_neg inside, not_not] at hdel
      exact hemp text true c' unbroken (empty.mpr hdel) killed
    | forward inside c' text killed unbroken before after empty =>
      rw [if_neg inside, not_not] at hdel
      exact hemp text false c' unbroken (empty.mpr hdel) killed

/-! ### Yanks -/

/-- A text of the kill ring is at a place, put there by a yank. -/
def Yanked (start : TextCursor UInt16) (e : Editor) (text : Text) : Prop :=
  e.killRing.getLast? = some text ∧ e.state = ofCursor (start.insert lf text) ∧ e.lastAction = some .yank

theorem yank_yanked (hst : e.state = ofCursor c) (htext : e.killRing.getLast? = some text) : Yanked c e.yank text := by
  unfold yank
  rw [htext]
  refine ⟨htext, ?_, rfl⟩
  dsimp only
  rw [hst, insertYanked_ofCursor]

theorem yankPop_yanked (h : Yanked c e text) : ∃ text', Yanked c e.yankPop text' := by
  obtain ⟨htext, hst, hlast⟩ := h
  unfold yankPop
  split
  · exact ⟨text, htext, hst, hlast⟩
  · rename_i hmany
    rw [not_or, not_le] at hmany
    have hrotated : rotate e.killRing = text :: e.killRing.dropLast := by
      unfold rotate
      rw [htext]
      exact if_pos hmany.2
    have hnewe : (e.killRing.getLastD []) = text := by
      rw [getLastD_eq_getLast?, htext]
      rfl
    dsimp only
    rw [hrotated, hnewe, hst, deleteYanked_insert, insertYanked_ofCursor]
    refine ⟨_, ?_, rfl, rfl⟩
    rw [getLastD_eq_getLast?, List.getLast?_cons]
    rfl

/-- **Yank-pops show the newest entry**, however many there are, at the place of the yank. -/
theorem yankPop_shows (hst : e.state = ofCursor c) (hring : e.killRing ≠ []) (n : ℕ) :
    ∃ text, Yanked c (yankPop^[n] e.yank) text := by
  induction n with
  | zero => exact ⟨_, yank_yanked hst (List.getLast?_eq_some_getLast hring)⟩
  | succ n ih =>
    obtain ⟨text, hyan⟩ := ih
    rw [Function.iterate_succ_apply']
    exact yankPop_yanked hyan

theorem Yanked.texts (h : Yanked c e text) (hc : c.Unbroken lf) :
    e.state.lines = splitLines (c.before lf ++ text ++ c.after lf) ∧
      e.state.textBefore = c.before lf ++ text ∧ e.state.textAfter = c.after lf := by
  obtain ⟨-, hst, -⟩ := h
  rw [hst, lines_ofCursor, textBefore_ofCursor, textAfter_ofCursor,
    TextCursor.lines_eq_splitOn lf (TextCursor.insert_unbroken lf hc text), TextCursor.insert_before,
    TextCursor.insert_after]
  exact ⟨rfl, rfl, rfl⟩

/-! ### Kills and yanks -/

theorem kill_then_yank_of (hwell : e.state.WellFormed) (hlast : e.lastAction = none)
    (hops : ∀ op ∈ ops, IsKill op) (hchanged : (e.performAll u ops).state.lines ≠ e.state.lines)
    (hdel : e.killRing = [] ∨ FirstKillDeletes u e ops) : KillsAndYanks u e ops := by
  obtain ⟨c, hc, hst⟩ := wellFormed_iff.mp hwell
  have hfr : TakenInto e.killRing ([] ++ []) e := Or.inr ⟨rfl, rfl, Or.inl (by rw [hlast]; decide)⟩
  obtain ⟨c', left, right, hrun⟩ := killRun_run (u := u) ops
    ⟨hst, hc, (append_nil _).symm, (nil_append _).symm, hfr⟩ hops (Or.inr hdel)
  have htak : left ++ right ≠ [] := by
    intro hnil
    obtain ⟨rfl, rfl⟩ := append_eq_nil_iff.mp hnil
    have hbef := hrun.before
    have haft := hrun.after
    rw [append_nil] at hbef
    rw [nil_append] at haft
    refine hchanged ?_
    rw [hrun.state, hst, TextCursor.ext_texts lf hc hrun.unbroken hbef haft]
  obtain ⟨-, hring, -⟩ := hrun.entry.resolve_right fun h => htak h.1
  have hnewe : (e.performAll u ops).killRing.getLast? = some (left ++ right) := by
    rw [hring, List.getLast?_concat]
  obtain ⟨hlns, hbef, -⟩ := (yank_yanked hrun.state hnewe).texts hrun.unbroken
  refine ⟨left, right, ?_, ?_, hring, ?_, ?_⟩
  · rw [hrun.state, hst, textBefore_ofCursor, textBefore_ofCursor]
    exact hrun.before
  · rw [hrun.state, hst, textAfter_ofCursor, textAfter_ofCursor]
    exact hrun.after
  · rw [hlns, hst, lines_ofCursor, TextCursor.lines_eq_splitOn lf hc, hrun.before, hrun.after, splitLines]
    simp only [append_assoc]
  · rw [hbef, hrun.state, textBefore_ofCursor]

/-- The document with the newest entry of the kill ring at the cursor of another one. -/
def ShowsNewest (start : EditorState) (e : Editor) : Prop :=
  ∃ newest, e.killRing.getLast? = some newest ∧
    e.state.lines = splitLines (start.textBefore ++ newest ++ start.textAfter) ∧
    e.state.textBefore = start.textBefore ++ newest ∧ e.state.textAfter = start.textAfter

/-- **Kill and yank are inverse** for a run of kills that takes something from a document, exactly when the kill ring
was empty or the first kill that is not at an edge of the document takes something. Yank-pops always show the newest
entry at the place of the yank. -/
theorem kill_then_yank (u : Unicode) (e : Editor) (ops : List Op) (hwell : e.state.WellFormed)
    (hlast : e.lastAction = none) (hops : ∀ op ∈ ops, IsKill op)
    (hchanged : (e.performAll u ops).state.lines ≠ e.state.lines) :
    (KillsAndYanks u e ops ↔ e.killRing = [] ∨ FirstKillDeletes u e ops) ∧
      ∀ d : Editor, d.state.WellFormed → d.killRing ≠ [] → ∀ n, ShowsNewest d.state (yankPop^[n] d.yank) := by
  refine ⟨⟨?_, kill_then_yank_of ops hwell hlast hops hchanged⟩, ?_⟩
  · rintro ⟨left, right, -, -, hring, -⟩
    by_contra hnei
    rw [not_or] at hnei
    have hlen := kills_extend_older ops hwell hnei.1 hops hnei.2
    rw [hring, length_append] at hlen
    exact absurd hlen (Nat.succ_ne_self _)
  · intro d hwell hring n
    obtain ⟨c, hc, hst⟩ := wellFormed_iff.mp hwell
    obtain ⟨newest, hyan⟩ := yankPop_shows hst hring n
    have htex := hyan.texts hc
    rw [← textBefore_ofCursor, ← textAfter_ofCursor, ← hst] at htex
    exact ⟨newest, hyan.1, htex⟩

instance (s : EditorState) : Decidable s.WellFormed :=
  decidable_of_iff (s.cursorLine < s.lines.length ∧ s.cursorCol ≤ s.line.length ∧ ∀ line ∈ s.lines, lf ∉ line)
    ⟨fun ⟨line, col, unbroken⟩ => ⟨line, col, unbroken⟩, fun h => ⟨h.line, h.col, h.unbroken⟩⟩

/-- Two lines, with an older entry in the kill ring. -/
def twoLines : Editor := { state := ⟨[[0x61, 0x20, 0x62], [0x63]], 1, 1⟩, killRing := [[0x6F]] }

theorem kill_then_yank_twoLines : KillsAndYanks basicUnicode twoLines
    [.deleteToEndOfLine, .deleteWordBackwards, .deleteToStartOfLine, .deleteWordBackwards] :=
  (kill_then_yank basicUnicode twoLines _ (by decide) rfl (by decide) (by decide +kernel)).1.mpr
    (Or.inr (by decide +kernel))

/-- A Hebrew letter with a quotation mark, which is one word, before three letters. -/
def quotedLetter : Editor := { state := ⟨[[0x5D2, 0x27, 0x61, 0x62, 0x63]], 0, 2⟩, killRing := [[0x6F, 0x6C, 0x64]] }

/-- The killed letters are put into the entry that was there before the run. -/
theorem kill_then_yank_fails : quotedLetter.state.WellFormed ∧ quotedLetter.lastAction = none ∧
    (quotedLetter.performAll basicUnicode [.deleteWordBackwards, .deleteToEndOfLine]).state.lines = [[0x5D2, 0x27]] ∧
    (quotedLetter.performAll basicUnicode [.deleteWordBackwards, .deleteToEndOfLine]).killRing =
      [[0x6F, 0x6C, 0x64, 0x61, 0x62, 0x63]] ∧
    ¬ KillsAndYanks basicUnicode quotedLetter [.deleteWordBackwards, .deleteToEndOfLine] := by
  have hring : (quotedLetter.performAll basicUnicode [.deleteWordBackwards, .deleteToEndOfLine]).killRing =
      [[0x6F, 0x6C, 0x64, 0x61, 0x62, 0x63]] := by decide +kernel
  refine ⟨by decide, rfl, by decide +kernel, hring, ?_⟩
  rintro ⟨left, right, -, -, hnew, -⟩
  rw [hring] at hnew
  exact absurd (congrArg List.length hnew) (by simp [quotedLetter])

end Editor
end EasyPi.Tui
