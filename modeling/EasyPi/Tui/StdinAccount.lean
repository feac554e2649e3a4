/-
# No input is lost, but for an incomplete sequence before a paste

The text of a buffer's events and of what it holds is the text of its inputs, in every run in which no paste begins
behind an incomplete sequence; such a sequence is dropped and nothing makes up for it.
-/
import Mathlib.Data.List.Chain
import EasyPi.Lib.Runs
import EasyPi.Tui.StdinSequences

namespace EasyPi.Tui
namespace Stdin

open List StdinBuffer

/-! ### Texts -/

def Event.text : Event → Text
  | data sequence => sequence
  | paste content => bracketedPasteStart ++ content ++ bracketedPasteEnd
  | suppressed sequence => sequence

def StdinBuffer.held (s : StdinBuffer) : Text :=
  if s.pasteMode then bracketedPasteStart ++ s.pasteBuffer ++ s.buffer else s.buffer

def StdinBuffer.Input.text : Input → Text
  | .chunk str => str
  | .timeout => []

def inputText (inputs : List Input) : Text := inputs.flatMap Input.text

/-- What a buffer has emitted and suppressed, and what it holds. -/
def account (s : StdinBuffer × List Event) : Text := s.2.flatMap Event.text ++ s.1.held

/-- The texts in front of the paste markers of a text, from inside or outside of a paste. -/
def beforePastes (pasteMode : Bool) (text : Text) : List Text :=
  if pasteMode then
    match _hfound : indexOf? text bracketedPasteEnd with
    | some endIndex => beforePastes false (text.drop (endIndex + bracketedPasteEnd.length))
    | none => []
  else
    match _hfound : indexOf? text bracketedPasteStart with
    | some startIndex =>
      text.take startIndex :: beforePastes true (text.drop (startIndex + bracketedPasteStart.length))
    | none => []
termination_by text.length
decreasing_by
  all_goals
    have hle := ((indexOf?_eq_some_iff (cons_ne_nil _ _)).mp _hfound).2.1.le_length (cons_ne_nil _ _)
    simp only [length_drop, bracketedPasteStart, bracketedPasteEnd, length_cons, length_nil] at hle ⊢
    omega

/-- The text that is held, without the marker in front of a paste. -/
def StdinBuffer.inside (s : StdinBuffer) : Text := s.pasteBuffer ++ s.buffer

/-- No paste of the chunk begins behind an incomplete sequence. -/
def ChunkKeeps (s : StdinBuffer) (str : Text) : Prop := ∀ text ∈ beforePastes s.pasteMode (s.inside ++ str), Whole text

/-- No paste begins behind an incomplete sequence. -/
def KeepsAll (s : StdinBuffer × List Event) : Input → Prop
  | .chunk str => ChunkKeeps s.1 str
  | .timeout => True

theorem emitDataSequence_text (s : StdinBuffer) (sequence : Text) : (s.emitDataSequence sequence).2.text = sequence := by
  unfold emitDataSequence
  split
  · rfl
  · rfl

theorem emitAll_text (s : StdinBuffer) (sequences : List Text) :
    (s.emitAll sequences).2.flatMap Event.text = sequences.flatten := by
  induction sequences generalizing s with
  | nil => rfl
  | cons sequence sequences ih =>
    rw [emitAll]
    simp only [flatMap_cons, flatten_cons, emitDataSequence_text, ih]

/-! ### What is kept of a text -/

/-- Either everything is kept, or the text has become shorter. -/
structure Keeps (all : Prop) (before after : Text) : Prop where
  same : all → after = before
  shorter : ¬ all → after.length < before.length

theorem Keeps.of_eq {before after : Text} {all : Prop} (h : after = before) (hall : all) : Keeps all before after :=
  ⟨fun _ => h, fun hnot => absurd hall hnot⟩

theorem Keeps.trans {p q : Prop} {a b c : Text} (hab : Keeps p a b) (hbc : Keeps q b c) : Keeps (p ∧ q) a c := by
  constructor
  · rintro ⟨hp, hq⟩
    rw [hbc.same hq, hab.same hp]
  · intro hnot
    have hle : b.length ≤ a.length := by
      by_cases hp : p
      · rw [hab.same hp]
      · exact (hab.shorter hp).le
    by_cases hq : q
    · rw [hbc.same hq]
      exact hab.shorter fun hp => hnot ⟨hp, hq⟩
    · exact (hbc.shorter hq).trans_le hle

theorem Keeps.append {p : Prop} {a b : Text} (front back : Text) (h : Keeps p a b) :
    Keeps p (front ++ a ++ back) (front ++ b ++ back) := by
  constructor
  · intro hp
    rw [h.same hp]
  · intro hp
    have hlt := h.shorter hp
    simp only [length_append]
    omega

theorem Keeps.iff {p : Prop} {a b : Text} (h : Keeps p a b) : b = a ↔ p := by
  constructor
  · intro heq
    by_contra hnot
    have hlt := h.shorter hnot
    rw [heq] at hlt
    omega
  · exact h.same

theorem indexOf?_split {text marker : Text} {i : ℕ} (hmar : marker ≠ []) (h : indexOf? text marker = some i) :
    text = text.take i ++ marker ++ text.drop (i + marker.length) := by
  have hocc := ((indexOf?_eq_some_iff hmar).mp h).2.1.take_drop
  conv_lhs => rw [← take_append_drop i text, ← take_append_drop marker.length (text.drop i), hocc]
  rw [drop_drop, append_assoc]

theorem extract_keeps (text : Text) : Keeps (Whole text) text (extractCompleteSequences text).1.flatten := by
  have hflat := extractFrom_flatten [] text
  rw [nil_append] at hflat
  constructor
  · intro hwho
    have hnil := hwho.remainder
    rw [hnil, append_nil] at hflat
    exact hflat
  · intro hnot
    have hne : (extractFrom [] text).2 ≠ [] := fun hnil => hnot (remainder_eq_nil_iff.mp hnil)
    have hpos := length_pos_iff.mpr hne
    have hlen := congrArg List.length hflat
    rw [length_append] at hlen
    change (extractFrom [] text).1.flatten.length < text.length
    omega

/-! ### Chunks -/

/-- A buffer in paste mode keeps its text in the paste buffer. -/
def Tidy (s : StdinBuffer) : Prop := (s.pasteMode = true → s.buffer = []) ∧ (s.pasteMode = false → s.pasteBuffer = [])

variable {s : StdinBuffer}

theorem tidy_emitAll (h : Tidy s) (sequences : List Text) : Tidy (s.emitAll sequences).1 := by
  obtain ⟨codepoint, heq⟩ := s.emitAll_eq sequences
  rw [heq]
  exact h

theorem held_emitAll (s : StdinBuffer) (sequences : List Text) : (s.emitAll sequences).1.held = s.held := by
  obtain ⟨codepoint, heq⟩ := s.emitAll_eq sequences
  rw [heq]
  rfl

/-- The condition on what `collect` cuts. -/
def CollectsAll (s : StdinBuffer) (str : Text) : Prop :=
  s.pasteMode = false → ∀ i, indexOf? (s.buffer ++ str) bracketedPasteStart = some i → Whole ((s.buffer ++ str).take i)

/-- **`collect`** loses only what is incomplete before a paste. -/
theorem collect_account (h : Tidy s) (str : Text) :
    Tidy (s.collect str).1 ∧ Keeps (CollectsAll s str) (s.held ++ str) (account (s.collect str)) := by
  by_cases hmode : s.pasteMode = true
  · have hin : ¬ s.pasteMode = false := by simp [hmode]
    rw [collect_inside hmode]
    refine ⟨⟨fun _ => rfl, fun hfal => absurd hfal hin⟩, .of_eq ?_ fun hfal => absurd hfal hin⟩
    unfold account held
    simp [hmode]
  have hout : s.pasteMode = false := by simpa using hmode
  have hheld : s.held ++ str = s.buffer ++ str := by
    unfold held
    rw [if_neg hmode]
  rw [hheld]
  cases hpre : indexOf? (s.buffer ++ str) bracketedPasteStart with
  | some i =>
    rw [collect_start hout hpre]
    refine ⟨⟨fun _ => rfl, fun hfal => by cases hfal⟩, ?_⟩
    have hkp := (extract_keeps ((s.buffer ++ str).take i)).append []
      (bracketedPasteStart ++ (s.buffer ++ str).drop (i + bracketedPasteStart.length))
    have hspl := indexOf?_split bracketedPasteStart_ne_nil hpre
    rw [nil_append, nil_append, ← append_assoc, ← hspl] at hkp
    have hiff : CollectsAll s str ↔ Whole ((s.buffer ++ str).take i) := by
      unfold CollectsAll
      rw [hpre]
      constructor
      · exact fun hall => hall hout i rfl
      · rintro hwho - j hj
        rwa [← Option.some.inj hj]
    have hacc : ∀ sequences : List Text,
        account ({ pasteMode := true, pasteBuffer := (s.buffer ++ str).drop (i + bracketedPasteStart.length) },
          (s.emitAll sequences).2) = sequences.flatten ++
            (bracketedPasteStart ++ (s.buffer ++ str).drop (i + bracketedPasteStart.length)) := by
      intro sequences
      unfold account held
      rw [emitAll_text]
      simp
    rw [hiff, hacc]
    exact hkp
  | none =>
    rw [collect_plain hout hpre]
    have hall : CollectsAll s str := fun _ i hi => by rw [hpre] at hi; cases hi
    have htidy : Tidy { s with buffer := (extractCompleteSequences (s.buffer ++ str)).2 } :=
      ⟨fun htrue => absurd htrue hmode, h.2⟩
    refine ⟨tidy_emitAll htidy _, .of_eq ?_ hall⟩
    have hflat := extractFrom_flatten [] (s.buffer ++ str)
    unfold account
    rw [emitAll_text, held_emitAll]
    unfold held
    rw [if_neg hmode]
    exact hflat

/-! ### Pastes -/

section
variable {text : Text} {i : ℕ}

theorem beforePastes_start (h : indexOf? text bracketedPasteStart = some i) :
    beforePastes false text = text.take i :: beforePastes true (text.drop (i + bracketedPasteStart.length)) := by
  rw [beforePastes, if_neg Bool.false_ne_true]
  split
  · rename_i j hj
    rw [Option.some.inj (hj.symm.trans h)]
  · rename_i hj
    cases hj.symm.trans h

theorem beforePastes_plain (h : indexOf? text bracketedPasteStart = none) : beforePastes false text = [] := by
  rw [beforePastes, if_neg Bool.false_ne_true]
  split
  · rename_i j hj
    cases hj.symm.trans h
  · rfl

theorem beforePastes_end (h : indexOf? text bracketedPasteEnd = some i) :
    beforePastes true text = beforePastes false (text.drop (i + bracketedPasteEnd.length)) := by
  rw [beforePastes, if_pos rfl]
  split
  · rename_i j hj
    rw [Option.some.inj (hj.symm.trans h)]
  · rename_i hj
    cases hj.symm.trans h

theorem beforePastes_inside (h : indexOf? text bracketedPasteEnd = none) : beforePastes true text = [] := by
  rw [beforePastes, if_pos rfl]
  split
  · rename_i j hj
    cases hj.symm.trans h
  · rfl

end

theorem chunkKeeps_iff (h : Tidy s) (str : Text) :
    ChunkKeeps s str ↔ CollectsAll s str ∧ ((s.collect str).1.pasteMode = true →
        ∀ text ∈ beforePastes true (s.collect str).1.pasteBuffer, Whole text) := by
  unfold ChunkKeeps CollectsAll inside
  by_cases hmode : s.pasteMode = true
  · have hin : ¬ s.pasteMode = false := by simp [hmode]
    rw [collect_inside hmode, hmode, append_assoc]
    simp
  have hout : s.pasteMode = false := by simpa using hmode
  rw [hout, h.2 hout, nil_append]
  cases hpre : indexOf? (s.buffer ++ str) bracketedPasteStart with
  | some i =>
    rw [collect_start hout hpre, beforePastes_start hpre]
    simp
  | none =>
    rw [collect_plain hout hpre, beforePastes_plain hpre]
    obtain ⟨codepoint, heq⟩ := emitAll_eq
      { s with buffer := (extractCompleteSequences (s.buffer ++ str)).2 } (extractCompleteSequences (s.buffer ++ str)).1
    rw [heq]
    simp [hout]

structure Settled (s : StdinBuffer) : Prop where
  tidy : Tidy s
  unfinished : s.pasteMode = true → indexOf? s.pasteBuffer bracketedPasteEnd = none

theorem settled_new : Settled {} := ⟨⟨(nomatch ·), fun _ => rfl⟩, (nomatch ·)⟩

theorem account_paste (s : StdinBuffer) (before events : List Event) (content : Text) :
    account (s, before ++ .paste content :: events) =
      before.flatMap Event.text ++ (bracketedPasteStart ++ content ++ bracketedPasteEnd) ++ account (s, events) := by
  unfold account
  simp [Event.text]

theorem account_collected {events : List Event} {i : ℕ} (h : Tidy s) (hmode : s.pasteMode = true)
    (hend : indexOf? s.pasteBuffer bracketedPasteEnd = some i) : account (s, events) =
      events.flatMap Event.text ++ (bracketedPasteStart ++ s.pasteBuffer.take i ++ bracketedPasteEnd) ++
        s.pasteBuffer.drop (i + bracketedPasteEnd.length) := by
  have hspl := indexOf?_split bracketedPasteEnd_ne_nil hend
  unfold account held
  rw [if_pos hmode, h.1 hmode, append_nil]
  conv_lhs => rw [hspl]
  simp only [append_assoc]

theorem settled_emitDataSequence (h : Settled s) (sequence : Text) : Settled (s.emitDataSequence sequence).1 := by
  obtain ⟨codepoint, heq⟩ := s.emitDataSequence_eq sequence
  rw [heq]
  exact ⟨h.tidy, h.unfinished⟩

/-- **A chunk is kept** exactly when no paste of it begins behind an incomplete sequence. -/
theorem process_account {str : Text} (h : Settled s) :
    Settled (s.process str).1 ∧ Keeps (ChunkKeeps s str) (s.held ++ str) (account (s.process str)) := by
  -- by induction on the text that is held and the chunk: behind a paste there is less
  generalize hn : s.buffer.length + s.pasteBuffer.length + str.length = n
  induction n using Nat.strong_induction_on generalizing s str with
  | _ n ih =>
    by_cases hemp : str = [] ∧ s.buffer = []
    · rw [process_empty hemp]
      refine ⟨settled_emitDataSequence h [], .of_eq ?_ ?_⟩
      · obtain ⟨codepoint, heq⟩ := s.emitDataSequence_eq []
        unfold account
        rw [heq, hemp.1, append_nil]
        simp [emitDataSequence_text]
        rfl
      · unfold ChunkKeeps inside
        rw [hemp.1, hemp.2, append_nil, append_nil]
        by_cases hmode : s.pasteMode = true
        · rw [hmode, beforePastes_inside (h.unfinished hmode)]
          simp
        · have hout : s.pasteMode = false := by simpa using hmode
          rw [hout, h.tidy.2 hout, beforePastes_plain (by decide)]
          simp
    obtain ⟨htidy, hkp⟩ := collect_account h.tidy str
    have hiff := chunkKeeps_iff h.tidy str
    by_cases hopen : (s.collect str).1.pasteMode = true → indexOf? (s.collect str).1.pasteBuffer bracketedPasteEnd = none
    · rw [process_unfinished hemp hopen]
      refine ⟨⟨htidy, hopen⟩, ?_⟩
      have hcol : ChunkKeeps s str ↔ CollectsAll s str := by
        rw [hiff]
        refine and_iff_left fun hmode => ?_
        rw [beforePastes_inside (hopen hmode)]
        simp
      rw [hcol]
      exact hkp
    · push Not at hopen
      obtain ⟨hmode, hsome⟩ := hopen
      obtain ⟨i, hend⟩ := Option.ne_none_iff_exists'.mp hsome
      rw [process_end hemp hmode hend, account_paste]
      rw [account_collected htidy hmode hend] at hkp
      set rest := (s.collect str).1.pasteBuffer.drop (i + bracketedPasteEnd.length) with hrest
      have hchk : ChunkKeeps s str ↔ CollectsAll s str ∧ ChunkKeeps {} rest := by
        rw [hiff, beforePastes_end hend, ← hrest]
        unfold ChunkKeeps inside
        simp [hmode]
      rw [hchk]
      have hbeh : Settled (processRest rest).1 ∧ Keeps (ChunkKeeps {} rest) rest (account (processRest rest)) := by
        unfold processRest
        by_cases hnil : rest = []
        · rw [if_pos hnil, hnil]
          refine ⟨settled_new, .of_eq rfl ?_⟩
          unfold ChunkKeeps inside
          rw [append_nil, append_nil, beforePastes_plain (by decide)]
          simp
        · rw [if_neg hnil]
          refine ih _ ?_ settled_new rfl
          have hle := length_pasteBuffer_collect_le s str
          have hpos := length_pos_iff.mpr hnil
          rw [hrest, length_drop] at hpos ⊢
          simp only [bracketedPasteEnd, length_cons, length_nil] at hpos ⊢
          omega
      refine ⟨hbeh.1, ?_⟩
      have happ := hbeh.2.append ((s.collect str).2.flatMap Event.text ++
        (bracketedPasteStart ++ (s.collect str).1.pasteBuffer.take i ++ bracketedPasteEnd)) []
      rw [append_nil, append_nil] at happ
      exact hkp.trans happ

/-! ### Runs -/

theorem onTimeout_account (h : Settled s) : Settled s.onTimeout.1 ∧ account s.onTimeout = s.held := by
  unfold onTimeout flush
  by_cases hemp : s.buffer = []
  · rw [if_pos hemp]
    refine ⟨h, ?_⟩
    unfold account
    simp [emitAll]
  · rw [if_neg hemp]
    have hout : s.pasteMode = false := by
      by_contra hmode
      exact hemp (h.tidy.1 (by simpa using hmode))
    have hstl : Settled { s with buffer := [], pendingKittyPrintableCodepoint := none } :=
      ⟨⟨fun _ => rfl, h.tidy.2⟩, h.unfinished⟩
    refine ⟨settled_emitDataSequence hstl s.buffer, ?_⟩
    unfold account
    rw [emitAll_text, held_emitAll]
    unfold held
    simp [hout]

theorem step_account {s : StdinBuffer × List Event} (h : Settled s.1) (input : Input) :
    Settled (step s input).1 ∧ Keeps (KeepsAll s input) (account s ++ input.text) (account (step s input)) := by
  have hstep : ∀ next : StdinBuffer × List Event,
      account (next.1, s.2 ++ next.2) = s.2.flatMap Event.text ++ account next := by
    intro next
    unfold account
    rw [flatMap_append, append_assoc]
  cases input with
  | chunk str =>
    obtain ⟨hstl, hkp⟩ := @process_account s.1 str h
    refine ⟨hstl, ?_⟩
    have happ := hkp.append (s.2.flatMap Event.text) []
    rw [append_nil, append_nil, ← append_assoc, ← hstep] at happ
    exact happ
  | timeout =>
    obtain ⟨hstl, hsame⟩ := onTimeout_account h
    refine ⟨hstl, .of_eq ?_ trivial⟩
    change account (s.1.onTimeout.1, s.2 ++ s.1.onTimeout.2) = _
    rw [hstep, hsame]
    exact (append_nil _).symm

theorem run_account (inputs : List Input) {s : StdinBuffer × List Event} (h : Settled s.1) :
    Keeps (Along step KeepsAll s inputs) (account s ++ inputText inputs) (account (inputs.foldl step s)) := by
  induction inputs generalizing s with
  | nil => exact .of_eq (append_nil _).symm trivial
  | cons input inputs ih =>
    obtain ⟨hstl, hkp⟩ := step_account h input
    have happ := hkp.append [] (inputText inputs)
    rw [nil_append, nil_append, append_assoc] at happ
    exact happ.trans (ih hstl)

/-! ### Suppressed characters -/

/-- A suppressed character is the one that the key directly before it reported. -/
def RepeatsKey : Event → Event → Prop
  | .data key, .suppressed sequence =>
    ∃ c, sequence = [c] ∧ parseUnmodifiedKittyPrintableCodepoint key = some c.toNat
  | _, .suppressed _ => False
  | _, _ => True

/-- Every suppressed character repeats a key. -/
def OnlyRepeats (events : List Event) : Prop := (.paste [] :: events).IsChain RepeatsKey

/-- The codepoint that is remembered is that of the last key. -/
structure Remembers (s : StdinBuffer) (events : List Event) : Prop where
  repeats : OnlyRepeats events
  last : ∀ codepoint, s.pendingKittyPrintableCodepoint = some codepoint →
    ∃ key, events.getLast? = some (.data key) ∧ parseUnmodifiedKittyPrintableCodepoint key = some codepoint

variable {s : StdinBuffer} {events : List Event}

theorem onlyRepeats_concat {event : Event} (h : OnlyRepeats events)
    (heve : ∀ sequence, event = .suppressed sequence → ∃ key c, events.getLast? = some (.data key) ∧
      sequence = [c] ∧ parseUnmodifiedKittyPrintableCodepoint key = some c.toNat) : OnlyRepeats (events ++ [event]) := by
  unfold OnlyRepeats at h ⊢
  rw [← cons_append, isChain_append]
  refine ⟨h, isChain_singleton _, ?_⟩
  intro x hx y hy
  have hy' : y = event := by simpa using hy.symm
  subst hy'
  cases y with
  | suppressed sequence =>
    obtain ⟨key, c, hlast, hseq, hkey⟩ := heve sequence rfl
    have hx' : x = .data key := by
      rw [List.getLast?_cons, hlast] at hx
      simpa using hx.symm
    rw [hx']
    exact ⟨c, hseq, hkey⟩
  | data sequence => cases x <;> trivial
  | paste content => cases x <;> trivial

theorem Remembers.paste (h : OnlyRepeats events) (content : Text) : OnlyRepeats (events ++ [.paste content]) :=
  onlyRepeats_concat h fun _ heq => by cases heq

theorem rawCodepoint_eq_some {sequence : Text} {codepoint : ℕ} (h : rawCodepoint sequence = some codepoint) :
    ∃ c : UInt16, sequence = [c] ∧ c.toNat = codepoint := by
  unfold rawCodepoint at h
  split at h
  · rename_i c
    exact ⟨c, rfl, Option.some.inj h⟩
  · cases h

theorem Remembers.emit (h : Remembers s events) (sequence : Text) :
    Remembers (s.emitDataSequence sequence).1 (events ++ [(s.emitDataSequence sequence).2]) := by
  unfold emitDataSequence
  split
  · rename_i hrep
    refine ⟨onlyRepeats_concat h.repeats fun other heq => ?_, fun _ hnone => by cases hnone⟩
    obtain ⟨codepoint, hraw⟩ := Option.ne_none_iff_exists'.mp hrep.1
    obtain ⟨c, hseq, hc⟩ := rawCodepoint_eq_some hraw
    obtain ⟨key, hlast, hkey⟩ := h.last codepoint (by rw [← hrep.2, hraw])
    have hoth : sequence = other := by simpa using heq
    exact ⟨key, c, hlast, hoth ▸ hseq, by rw [hc, hkey]⟩
  · refine ⟨onlyRepeats_concat h.repeats (fun _ heq => by cases heq), fun codepoint hprs => ?_⟩
    exact ⟨sequence, List.getLast?_concat, hprs⟩

theorem Remembers.emitAll (h : Remembers s events) (sequences : List Text) :
    Remembers (s.emitAll sequences).1 (events ++ (s.emitAll sequences).2) := by
  induction sequences generalizing s events with
  | nil => simpa [StdinBuffer.emitAll] using h
  | cons sequence sequences ih =>
    have hrest := ih (h.emit sequence)
    rw [append_assoc] at hrest
    exact hrest

theorem Remembers.collect (h : Remembers s events) (str : Text) :
    Remembers (s.collect str).1 (events ++ (s.collect str).2) := by
  by_cases hmode : s.pasteMode = true
  · rw [collect_inside hmode, append_nil]
    exact ⟨h.repeats, h.last⟩
  have hout : s.pasteMode = false := by simpa using hmode
  cases hpre : indexOf? (s.buffer ++ str) bracketedPasteStart with
  | some i =>
    rw [collect_start hout hpre]
    exact ⟨(h.emitAll _).repeats, fun _ hnone => by cases hnone⟩
  | none =>
    rw [collect_plain hout hpre]
    have hbuf : Remembers { s with buffer := (extractCompleteSequences (s.buffer ++ str)).2 } events :=
      ⟨h.repeats, h.last⟩
    exact hbuf.emitAll _

theorem Remembers.process {str : Text} (h : Remembers s events) :
    Remembers (s.process str).1 (events ++ (s.process str).2) := by
  induction s, str using StdinBuffer.process.induct generalizing events with
  | case1 s str hemp s₁ event hemit =>
    rw [process_empty hemp]
    exact h.emit []
  | case2 s str hne hmode i hend =>
    rename_i remaining hrem s₁ after hpro ih
    rw [process_end hne hmode hend]
    unfold processRest
    rw [if_neg hrem, append_cons, ← append_assoc, ← append_assoc]
    exact ih ⟨Remembers.paste (h.collect str).repeats _, fun _ hnone => by cases hnone⟩
  | case3 s str hne hmode i hend =>
    rename_i remaining hrem
    rw [process_end hne hmode hend]
    unfold processRest
    rw [if_pos (not_not.mp hrem), ← append_assoc]
    exact ⟨Remembers.paste (h.collect str).repeats _, fun _ hnone => by cases hnone⟩
  | case4 s str hne hmode hend =>
    rw [process_unfinished hne fun _ => hend]
    exact h.collect str
  | case5 s str hne hmode =>
    rw [process_unfinished hne fun htrue => absurd htrue hmode]
    exact h.collect str

theorem Remembers.onTimeout (h : Remembers s events) : Remembers s.onTimeout.1 (events ++ s.onTimeout.2) := by
  unfold StdinBuffer.onTimeout flush
  by_cases hemp : s.buffer = []
  · rw [if_pos hemp]
    exact h.emitAll []
  · rw [if_neg hemp]
    have hflu : Remembers { s with buffer := [], pendingKittyPrintableCodepoint := none } events :=
      ⟨h.repeats, fun _ hnone => by cases hnone⟩
    exact hflu.emitAll [s.buffer]

theorem onlyRepeats_run (inputs : List Input) : OnlyRepeats (run inputs).2 := by
  have hrun : ∀ s : StdinBuffer × List Event, Remembers s.1 s.2 →
      Remembers (inputs.foldl step s).1 (inputs.foldl step s).2 := by
    induction inputs with
    | nil => exact fun _ h => h
    | cons input inputs ih =>
      intro s h
      refine ih _ ?_
      cases input with
      | chunk str => exact h.process
      | timeout => exact h.onTimeout
  exact (hrun ({}, []) ⟨isChain_singleton _, fun _ hnone => by cases hnone⟩).repeats

/-- **The account of a run.** Only repeated characters are suppressed; and what is emitted, suppressed and held is the
text of the inputs exactly when no paste begins behind an incomplete sequence. -/
theorem stdin_account (inputs : List Input) :
    OnlyRepeats (run inputs).2 ∧ (account (run inputs) = inputText inputs ↔ Along step KeepsAll ({}, []) inputs) :=
  ⟨onlyRepeats_run inputs, (run_account inputs settled_new).iff⟩

/-- An `ESC` before a paste. -/
def escapeBeforePaste : Text := esc :: bracketedPasteStart

/-- **An incomplete sequence before a paste is lost.** -/
theorem stdin_account_fails :
    ¬ ∀ inputs : List Input, (∀ str, .chunk str ∈ inputs → str ≠ []) → account (run inputs) = inputText inputs := by
  intro h
  have hlost := h [.chunk escapeBeforePaste] (by simp [escapeBeforePaste])
  have hkp := (run_account _ settled_new).iff.mp hlost
  have hwho : Whole [esc] := hkp.1 [esc] (by
    change [esc] ∈ beforePastes false escapeBeforePaste
    rw [beforePastes_start (i := 1) (by decide)]
    exact mem_cons_self)
  exact absurd hwho.remainder (by decide)

end Stdin
end EasyPi.Tui
