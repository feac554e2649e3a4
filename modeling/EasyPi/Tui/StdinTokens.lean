/-
# Terminal input as tokens

Input that is made of well-formed tokens is cut into these tokens, however it is split into chunks. The one way to
break a token is a paste marker that begins inside of `ESC O ESC`.
-/
import EasyPi.Tui.StdinSequences

namespace EasyPi.Tui
namespace Stdin

open List StdinBuffer

/-! ### Tokens -/

inductive Token where
  | char (c : UInt16) (plain : c ≠ esc)
  | metaKey (c : UInt16) (other : c ∉ [esc, openBracket, closeBracket, upperP, underscore, upperO])
  | ss3 (c : UInt16)
  | csi (body : Text) (final : UInt16) (bytes : ∀ c ∈ body, 0x20 ≤ c ∧ c ≤ 0x3F) (isFinal : isFinal final = true)
      (noMouse : body = [] → final ≠ upperM)
      (report : body.head? = some less → isMouseReport (body ++ [final]) = true)
      (noStart : esc :: openBracket :: (body ++ [final]) ≠ bracketedPasteStart)
      (noEnd : esc :: openBracket :: (body ++ [final]) ≠ bracketedPasteEnd)
  | mouse (button x y : UInt16) (plain : ∀ c ∈ [button, x, y], c ≠ esc)
  | osc (content : Text) (belEnds : Bool) (plain : ∀ c ∈ content, c ≠ esc ∧ c ≠ bel)
  | dcs (content : Text) (plain : ∀ c ∈ content, c ≠ esc ∧ c ≠ bel)
  | apc (content : Text) (plain : ∀ c ∈ content, c ≠ esc ∧ c ≠ bel)
  | paste (content : Text) (inside : ¬ bracketedPasteEnd <:+: content)

namespace Token

def text : Token → Text
  | char c _ => [c]
  | metaKey c _ => [esc, c]
  | ss3 c => [esc, upperO, c]
  | csi body final .. => esc :: openBracket :: (body ++ [final])
  | mouse button x y _ => [esc, openBracket, upperM, button, x, y]
  | osc content belEnds _ => esc :: closeBracket :: (content ++ if belEnds then [bel] else stringTerminator)
  | dcs content _ => esc :: upperP :: (content ++ stringTerminator)
  | apc content _ => esc :: underscore :: (content ++ stringTerminator)
  | paste content _ => bracketedPasteStart ++ (content ++ bracketedPasteEnd)

def IsPaste : Token → Prop
  | paste .. => True
  | _ => False

instance : DecidablePred IsPaste := fun token => by
  unfold IsPaste
  split
  · exact .isTrue trivial
  · exact .isFalse id

/-- What a token begins with: all of it, or the marker of a paste. -/
def opening : Token → Text
  | paste .. => bracketedPasteStart
  | token => token.text

end Token

def textOf (tokens : List Token) : Text := tokens.flatMap Token.text

def eventOf (last : Option ℕ) : Token → Event
  | .paste content _ => .paste content
  | token =>
    if rawCodepoint token.text ≠ none ∧ rawCodepoint token.text = last then .suppressed token.text
    else .data token.text

/-- The codepoint of the key that was emitted last, behind a token. -/
def lastOf : Event → Option ℕ
  | .data sequence => parseUnmodifiedKittyPrintableCodepoint sequence
  | _ => none

/-- The events of tokens: each is emitted, but for a character directly behind the key that reported it. -/
def eventsOf (last : Option ℕ) : List Token → List Event
  | [] => []
  | token :: tokens => eventOf last token :: eventsOf (lastOf (eventOf last token)) tokens

def lastAfter (last : Option ℕ) : List Token → Option ℕ
  | [] => last
  | token :: tokens => lastAfter (lastOf (eventOf last token)) tokens

/-- The texts of `ESC O ESC` and of the characters that make a paste marker of its end. -/
def forgedStart : List Text := [[esc, upperO, esc], [openBracket], [0x32], [0x30], [0x30], [0x7E]]

/-- No paste marker begins inside of a token. -/
def Unforged (tokens : List Token) : Prop := ¬ forgedStart <:+: tokens.map Token.text

/-! ### Sequences of tokens -/

variable {c : UInt16} {u v w t text content : Text} {token : Token} {tokens rest : List Token} {d : UInt16}

attribute [local simp] stringTerminator bracketedPasteStart

theorem First.of_two (hcom : isCompleteSequence (esc :: d :: u) = .complete)
    (hsho : ∀ v, v <+: u → v ≠ u → isCompleteSequence (esc :: d :: v) = .incomplete) : First (esc :: d :: u) := by
  refine ⟨rfl, hcom, fun w hw hne hshort => ?_⟩
  rcases prefix_cons_iff.mp hw with rfl | ⟨w', rfl, hw'⟩
  · exact absurd rfl hne
  rcases prefix_cons_iff.mp hw' with rfl | ⟨v, rfl, hv⟩
  · decide
  · exact hsho v hv fun heq => hshort (by rw [heq])

theorem csi_status (h : ¬ [upperM] <+: u) : isCompleteSequence (esc :: openBracket :: u) =
    isCompleteCsiSequence (esc :: openBracket :: u) := by
  unfold isCompleteSequence
  have hmou : ¬ [openBracket, upperM] <+: openBracket :: u := by
    rw [cons_prefix_cons]
    exact fun hand => h hand.2
  simp [hmou]

theorem isFinal_byte (h : 0x20 ≤ c ∧ c ≤ 0x3F) : isFinal c = false := by
  have hlt : ¬ 0x40 ≤ c := by
    rw [UInt16.le_iff_toNat_le] at *
    have h2 := h.2
    rw [UInt16.le_iff_toNat_le] at h2
    intro h3
    change 64 ≤ c.toNat at h3
    change c.toNat ≤ 63 at h2
    omega
  unfold isFinal
  simp [hlt]

theorem Token.first_csi {body : Text} {final : UInt16} (hbyt : ∀ c ∈ body, 0x20 ≤ c ∧ c ≤ 0x3F)
    (hfin : isFinal final = true) (hmou : body = [] → final ≠ upperM)
    (hrep : body.head? = some less → isMouseReport (body ++ [final]) = true) :
    First (esc :: openBracket :: (body ++ [final])) := by
  have hbody : ∀ c ∈ body, isFinal c = false := fun c hc => isFinal_byte (hbyt c hc)
  have hupp : ∀ v, v <+: body → ¬ [upperM] <+: v := by
    intro v hv hm
    have hmem : upperM ∈ body := (hm.trans hv).subset mem_cons_self
    exact absurd (hbody _ hmem) (by decide)
  apply First.of_two
  · have hm : ¬ [upperM] <+: body ++ [final] := by
      rcases body with _ | ⟨b, body⟩
      · intro h
        exact hmou rfl (by simpa [prefix_cons_iff, eq_comm] using h)
      · intro h
        have hb : upperM = b := by simpa [prefix_cons_iff, eq_comm] using h
        exact absurd (hbody b mem_cons_self) (by rw [← hb]; decide)
    rw [csi_status hm]
    unfold isCompleteCsiSequence
    have hless : (body ++ [final]).head? = some less → isMouseReport (body ++ [final]) = true := by
      rcases body with _ | ⟨b, body⟩
      · intro h
        have hf : final = less := by simpa using h
        rw [hf] at hfin
        exact absurd hfin (by decide)
      · exact fun h => hrep (by simpa using h)
    have hlast : (body ++ [final]).getLast?.getD 0 = final := by simp
    rw [if_neg (by simp), if_neg (by simp)]
    change (if isFinal ((body ++ [final]).getLast?.getD 0) = true then
      if (body ++ [final]).head? = some less then _ else _ else _) = _
    rw [hlast, if_pos hfin]
    by_cases hhead : (body ++ [final]).head? = some less
    · rw [if_pos hhead]
      exact if_pos (hless hhead)
    · rw [if_neg hhead]
  · intro v hv hne
    have hpre : v <+: body := by
      rcases prefix_concat_cases hv with rfl | hv
      · exact absurd rfl hne
      · exact hv
    rw [csi_status (hupp v hpre)]
    unfold isCompleteCsiSequence
    rcases eq_nil_or_concat v with rfl | ⟨v', b, rfl⟩
    · simp
    · rw [concat_eq_append] at hpre ⊢
      have hb := hbody b (hpre.subset (by simp))
      simp [hb]

theorem osc_status : isCompleteSequence (esc :: closeBracket :: u) =
    if stringTerminator <:+ esc :: closeBracket :: u ∨ [bel] <:+ esc :: closeBracket :: u then .complete
    else .incomplete := by
  unfold isCompleteSequence isCompleteOscSequence
  simp [show closeBracket ≠ openBracket by decide]

theorem string_status (hd : d = upperP ∨ d = underscore) : isCompleteSequence (esc :: d :: u) =
    if stringTerminator <:+ esc :: d :: u then .complete else .incomplete := by
  unfold isCompleteSequence isCompleteDcsSequence isCompleteApcSequence isCompleteString
  rcases hd with rfl | rfl
  · simp [show upperP ≠ openBracket by decide, show upperP ≠ closeBracket by decide]
  · simp [show underscore ≠ openBracket by decide, show underscore ≠ closeBracket by decide,
      show underscore ≠ upperP by decide]

theorem not_terminated (hd : d ∉ [esc, bel, backslash]) (hv : ∀ c ∈ v, c ≠ esc ∧ c ≠ bel) :
    ¬ stringTerminator <:+ esc :: d :: v ∧ ¬ [bel] <:+ esc :: d :: v := by
  simp only [mem_cons, not_mem_nil, or_false, not_or] at hd
  constructor
  · rintro ⟨y, hy⟩
    rcases y with _ | ⟨a, _ | ⟨b, y⟩⟩
    · have h := List.cons.inj (List.cons.inj hy).2
      exact hd.2.2 h.1.symm
    · have h := List.cons.inj (List.cons.inj hy).2
      exact hd.1 h.1.symm
    · have h := (List.cons.inj (List.cons.inj hy).2).2
      exact (hv esc (by rw [← h]; simp)).1 rfl
  · rintro ⟨y, hy⟩
    rcases y with _ | ⟨a, _ | ⟨b, y⟩⟩
    · cases (List.cons.inj hy).2
    · have h := List.cons.inj (List.cons.inj hy).2
      exact hd.2.1 h.1.symm
    · have h := (List.cons.inj (List.cons.inj hy).2).2
      exact (hv bel (by rw [← h]; simp)).2 rfl

theorem not_terminated_esc :
    ¬ stringTerminator <:+ esc :: d :: (content ++ [esc]) ∧ ¬ [bel] <:+ esc :: d :: (content ++ [esc]) := by
  have hlast : (esc :: d :: (content ++ [esc])).getLast? = some esc := by
    rw [← cons_append, ← cons_append, List.getLast?_concat]
  constructor
  · rintro ⟨y, hy⟩
    have h := congrArg List.getLast? hy
    rw [hlast, stringTerminator, append_cons, List.getLast?_concat] at h
    exact absurd (Option.some.inj h) (by decide)
  · rintro ⟨y, hy⟩
    have h := congrArg List.getLast? hy
    rw [hlast, List.getLast?_concat] at h
    exact absurd (Option.some.inj h) (by decide)

theorem prefix_two_cases {a b : UInt16} (h : v <+: content ++ [a, b]) :
    v = content ++ [a, b] ∨ v = content ++ [a] ∨ v <+: content := by
  rw [append_cons] at h ⊢
  rcases prefix_concat_cases h with rfl | h
  · exact .inl rfl
  · rcases prefix_concat_cases h with rfl | h
    · exact .inr (.inl rfl)
    · exact .inr (.inr h)

theorem suffix_two (content end' : Text) : end' <:+ esc :: d :: (content ++ end') :=
  ((suffix_append content end').trans (suffix_cons d _)).trans (suffix_cons esc _)

theorem Token.first_osc {belEnds : Bool} (hpl : ∀ c ∈ content, c ≠ esc ∧ c ≠ bel) :
    First (esc :: closeBracket :: (content ++ if belEnds then [bel] else stringTerminator)) := by
  have hd : closeBracket ∉ [esc, bel, backslash] := by decide
  have hshort : ∀ v, v <+: content → isCompleteSequence (esc :: closeBracket :: v) = .incomplete := by
    intro v hv
    rw [osc_status]
    exact if_neg (not_or.mpr (not_terminated hd fun c hc => hpl c (hv.subset hc)))
  cases belEnds with
  | true =>
    apply First.of_two
    · rw [osc_status]
      exact if_pos (.inr (suffix_two content [bel]))
    · intro v hv hne
      rcases prefix_concat_cases hv with rfl | hv
      · exact absurd rfl hne
      · exact hshort v hv
  | false =>
    apply First.of_two
    · rw [osc_status]
      exact if_pos (.inl (suffix_two content stringTerminator))
    · intro v hv hne
      rcases prefix_two_cases hv with rfl | rfl | hv
      · exact absurd rfl hne
      · rw [osc_status]
        exact if_neg (not_or.mpr not_terminated_esc)
      · exact hshort v hv

theorem Token.first_string (hd : d = upperP ∨ d = underscore)
    (hpl : ∀ c ∈ content, c ≠ esc ∧ c ≠ bel) : First (esc :: d :: (content ++ stringTerminator)) := by
  have hoth : d ∉ [esc, bel, backslash] := by
    rcases hd with rfl | rfl
    · decide
    · decide
  apply First.of_two
  · rw [string_status hd]
    exact if_pos (suffix_two content stringTerminator)
  · intro v hv hne
    rw [string_status hd]
    rcases prefix_two_cases hv with rfl | rfl | hv
    · exact absurd rfl hne
    · exact if_neg not_terminated_esc.1
    · exact if_neg (not_terminated hoth fun c hc => hpl c (hv.subset hc)).1

theorem Token.first_metaKey (h : c ∉ [esc, openBracket, closeBracket, upperP, underscore, upperO]) : First [esc, c] := by
  simp only [mem_cons, not_mem_nil, or_false, not_or] at h
  obtain ⟨-, h₁, h₂, h₃, h₄, h₅⟩ := h
  apply First.of_two
  · unfold isCompleteSequence
    simp [h₁, h₂, h₃, h₄, h₅]
  · intro v hv hne
    exact absurd (prefix_nil.mp hv) hne

theorem Token.first_ss3 : First [esc, upperO, c] := by
  apply First.of_two
  · unfold isCompleteSequence
    simp [show upperO ≠ openBracket by decide, show upperO ≠ closeBracket by decide,
      show upperO ≠ upperP by decide, show upperO ≠ underscore by decide]
  · intro v hv hne
    rcases prefix_concat_cases (u := []) hv with rfl | hv
    · exact absurd rfl hne
    · rw [prefix_nil.mp hv]
      decide

theorem mouse_status (h : [upperM] <+: u) : isCompleteSequence (esc :: openBracket :: u) =
    if u.length + 2 ≥ 6 then .complete else .incomplete := by
  have hm : [openBracket, upperM] <+: openBracket :: u := cons_prefix_cons.mpr ⟨rfl, h⟩
  unfold isCompleteSequence
  simp [hm]

theorem Token.first_mouse {button x y : UInt16} : First [esc, openBracket, upperM, button, x, y] := by
  apply First.of_two
  · rw [mouse_status (cons_prefix_cons.mpr ⟨rfl, nil_prefix⟩)]
    rfl
  · intro v hv hne
    rcases prefix_cons_iff.mp hv with rfl | ⟨v', rfl, hv'⟩
    · decide
    · rw [mouse_status (cons_prefix_cons.mpr ⟨rfl, nil_prefix⟩)]
      have hlt : v'.length < 3 := by
        have hle := hv'.length_le
        have hlen : v'.length ≠ 3 := fun heq => hne (by rw [hv'.eq_of_length heq])
        simp only [length_cons, length_nil] at hle
        omega
      rw [length_cons]
      exact if_neg (by omega)

/-- **A token is a unit or the first sequence** of a text that begins with it. -/
theorem Token.first (token : Token) (h : ¬ token.IsPaste) :
    (∃ c, token.text = [c] ∧ c ≠ esc) ∨ First token.text ∧ token.text ≠ [esc, esc] := by
  cases token with
  | char c plain => exact .inl ⟨c, rfl, plain⟩
  | metaKey c other =>
    refine .inr ⟨first_metaKey other, fun heq => other ?_⟩
    have hc : c = esc := by simpa [text] using heq
    simp [hc]
  | ss3 c => exact .inr ⟨first_ss3, by simp [text]⟩
  | csi body final bytes isFinal noMouse report =>
    exact .inr ⟨first_csi bytes isFinal noMouse report, by simp [text]⟩
  | mouse button x y => exact .inr ⟨first_mouse, by simp [text]⟩
  | osc content belEnds plain => exact .inr ⟨first_osc plain, by cases belEnds <;> simp [text]⟩
  | dcs content plain => exact .inr ⟨first_string (.inl rfl) plain, by simp [text]⟩
  | apc content plain => exact .inr ⟨first_string (.inr rfl) plain, by simp [text]⟩
  | paste content => exact absurd trivial h

theorem extract_tokens (h : ∀ token ∈ tokens, ¬ token.IsPaste) (t : Text) :
    extractFrom [] (textOf tokens ++ t) = (tokens.map Token.text ++ (extractFrom [] t).1, (extractFrom [] t).2) := by
  induction tokens with
  | nil => rfl
  | cons token tokens ih =>
    obtain ⟨htok, htoks⟩ := forall_mem_cons.mp h
    have hih := ih htoks
    unfold textOf at hih ⊢
    rw [flatMap_cons, append_assoc, map_cons]
    rcases token.first htok with ⟨c, htext, hc⟩ | ⟨hfirst, hdoub⟩
    · rw [htext, singleton_append, extractFrom_unit hc, hih]
      rfl
    · rw [extractFrom_first hfirst fun hdou => hdoub hdou.1, hih]
      rfl

/-! ### Paste markers -/

def Clean (u w : Text) : Prop := ∀ j, j < u.length → ¬ OccursAt (u ++ w) bracketedPasteStart j

theorem clean_nil : Clean [] w := fun _ hj => absurd hj (Nat.not_lt_zero _)

theorem clean_cons (hc : ¬ bracketedPasteStart <+: c :: (u ++ w)) (hu : Clean u w) : Clean (c :: u) w := by
  intro j hj
  cases j with
  | zero => exact hc
  | succ j =>
    rw [cons_append, occursAt_cons_succ]
    exact hu j (Nat.lt_of_succ_lt_succ hj)

theorem clean_unit (hc : c ≠ esc) (hu : Clean u w) : Clean (c :: u) w :=
  clean_cons (fun h => hc (cons_prefix_cons.mp h).1.symm) hu

theorem clean_append_plain (hu : ∀ c ∈ u, c ≠ esc) (hv : Clean v w) : Clean (u ++ v) w := by
  induction u with
  | nil => exact hv
  | cons c u ih =>
    obtain ⟨hc, hrest⟩ := forall_mem_cons.mp hu
    exact clean_unit hc (ih hrest)

theorem clean_plain (hu : ∀ c ∈ u, c ≠ esc) : Clean u w := by
  have h := clean_append_plain (w := w) hu clean_nil
  rwa [append_nil] at h

theorem clean_esc (hd : d ≠ openBracket) (hu : Clean (d :: u) w) : Clean (esc :: d :: u) w := by
  refine clean_cons (fun h => ?_) hu
  have h₂ := (cons_prefix_cons.mp h).2
  exact hd (cons_prefix_cons.mp h₂).1.symm

theorem clean_terminator : Clean stringTerminator w := clean_esc (by decide) (clean_unit (by decide) clean_nil)

theorem ne_esc_of_byte (h : 0x20 ≤ c ∧ c ≤ 0x3F) : c ≠ esc := by
  rintro rfl
  exact absurd h.1 (by decide)

theorem ne_esc_of_isFinal (h : isFinal c = true) : c ≠ esc := by
  rintro rfl
  exact absurd h (by decide)

theorem csi_not_start {body : Text} {final : UInt16} (hbyt : ∀ c ∈ body, 0x20 ≤ c ∧ c ≤ 0x3F)
    (hfin : isFinal final = true) (hne : esc :: openBracket :: (body ++ [final]) ≠ bracketedPasteStart) :
    ¬ [0x32, 0x30, 0x30, 0x7E] <+: body ++ final :: w := by
  have hdig : ∀ d : UInt16, isFinal d = false → final ≠ d := by
    rintro d hd rfl
    exact absurd hd (by rw [hfin]; decide)
  intro h
  rcases body with _ | ⟨b₁, _ | ⟨b₂, _ | ⟨b₃, _ | ⟨b₄, body⟩⟩⟩⟩
  · have h₁ := (cons_prefix_cons.mp h).1
    exact hdig 0x32 (by decide) h₁.symm
  · have h₂ := (cons_prefix_cons.mp (cons_prefix_cons.mp h).2).1
    exact hdig 0x30 (by decide) h₂.symm
  · have h₃ := (cons_prefix_cons.mp (cons_prefix_cons.mp (cons_prefix_cons.mp h).2).2).1
    exact hdig 0x30 (by decide) h₃.symm
  · simp only [cons_append, nil_append, cons_prefix_cons] at h
    obtain ⟨rfl, rfl, rfl, rfl, -⟩ := h
    exact hne rfl
  · simp only [cons_append, cons_prefix_cons] at h
    obtain ⟨-, -, -, rfl, -⟩ := h
    have hb := (hbyt 0x7E (by simp)).2
    exact absurd hb (by decide)

/-- **No paste begins in a token**, but in an `ESC O ESC` before the rest of a marker. -/
theorem Token.clean (token : Token) (h : ¬ token.IsPaste)
    (hfor : token.text = [esc, upperO, esc] → ¬ bracketedPasteStart.tail <+: w) : Clean token.text w := by
  cases token with
  | char c plain => exact clean_unit plain clean_nil
  | metaKey c other =>
    simp only [mem_cons, not_mem_nil, or_false, not_or] at other
    exact clean_esc other.2.1 (clean_unit other.1 clean_nil)
  | ss3 c =>
    refine clean_esc (by decide) (clean_unit (by decide) ?_)
    by_cases hc : c = esc
    · subst hc
      refine clean_cons (fun hsta => hfor rfl ?_) clean_nil
      exact (cons_prefix_cons.mp hsta).2
    · exact clean_unit hc clean_nil
  | csi body final bytes isFinal noMouse report noStart =>
    refine clean_cons (fun hsta => ?_) (clean_unit (by decide) (clean_append_plain
      (fun c hc => ne_esc_of_byte (bytes c hc)) (clean_unit (ne_esc_of_isFinal isFinal) clean_nil)))
    have h₂ := (cons_prefix_cons.mp (cons_prefix_cons.mp hsta).2).2
    have h₃ : [0x32, 0x30, 0x30, 0x7E] <+: body ++ final :: w := by
      rw [append_cons]
      exact h₂
    exact csi_not_start bytes isFinal noStart h₃
  | mouse button x y plain =>
    refine clean_cons (fun hsta => ?_) (clean_plain fun c hc => ?_)
    · have h₂ := (cons_prefix_cons.mp (cons_prefix_cons.mp hsta).2).2
      exact absurd (cons_prefix_cons.mp h₂).1 (by decide)
    · rcases mem_cons.mp hc with rfl | hc
      · decide
      rcases mem_cons.mp hc with rfl | hc
      · decide
      · exact plain c hc
  | osc content belEnds plain =>
    refine clean_esc (by decide) (clean_unit (by decide) (clean_append_plain (fun c hc => (plain c hc).1) ?_))
    cases belEnds with
    | true => exact clean_unit (by decide) clean_nil
    | false => exact clean_terminator
  | dcs content plain | apc content plain =>
    exact clean_esc (by decide)
      (clean_unit (by decide) (clean_append_plain (fun c hc => (plain c hc).1) clean_terminator))
  | paste content => exact absurd trivial h

theorem Token.opening_ne_nil (token : Token) : token.opening ≠ [] := by
  cases token <;> simp [opening, text]

theorem Token.opening_eq (h : ¬ token.IsPaste) : token.opening = token.text := by
  cases token with
  | paste content => exact absurd trivial h
  | _ => rfl

theorem Token.text_of_head (h : (token.text ++ w).head? = some c) (hc : c ≠ esc) : token.text = [c] := by
  cases token with
  | char d plain =>
    have hd : d = c := by simpa [text] using h
    rw [← hd]
    rfl
  | _ => exact absurd (by simpa [text] using h.symm) hc

theorem units_of_prefix (hv : ∀ c ∈ v, c ≠ esc) (h : v <+: textOf tokens) :
    v.map (fun c => [c]) <+: tokens.map Token.text := by
  induction v generalizing tokens with
  | nil => exact nil_prefix
  | cons c v ih =>
    obtain ⟨hc, hrest⟩ := forall_mem_cons.mp hv
    cases tokens with
    | nil => cases prefix_nil.mp h
    | cons token tokens =>
      obtain ⟨w, hw⟩ := h
      have htext : token.text = [c] := by
        refine Token.text_of_head (w := textOf tokens) ?_ hc
        rw [show token.text ++ textOf tokens = textOf (token :: tokens) from rfl, ← hw]
        rfl
      have hbeh : v <+: textOf tokens := by
        refine ⟨w, ?_⟩
        rw [show textOf (token :: tokens) = token.text ++ textOf tokens from rfl, htext] at hw
        exact (List.cons.inj hw).2
      rw [map_cons, map_cons, htext]
      exact cons_prefix_cons.mpr ⟨rfl, ih hrest hbeh⟩

theorem Unforged.tail (h : Unforged (token :: tokens)) : Unforged tokens := fun hin =>
  h (hin.trans (suffix_cons _ _).isInfix)

theorem Unforged.of_append (h : Unforged (tokens ++ rest)) : Unforged rest := by
  induction tokens with
  | nil => exact h
  | cons token tokens ih => exact ih h.tail

theorem Unforged.clean (h : Unforged (token :: tokens)) (hpas : ¬ token.IsPaste) (hw : w <+: textOf tokens) :
    Clean token.text w := by
  refine token.clean hpas fun htext hsta => h ?_
  have hun := units_of_prefix (by decide) (hsta.trans hw)
  rw [map_cons, htext]
  exact (cons_prefix_cons.mpr ⟨rfl, hun⟩ : forgedStart <+: _).isInfix

theorem indexOf?_clean (h : Clean u t) :
    indexOf? (u ++ t) bracketedPasteStart = (indexOf? t bracketedPasteStart).map (u.length + ·) := by
  have hne := bracketedPasteStart_ne_nil
  have hshi : ∀ j, OccursAt (u ++ t) bracketedPasteStart (u.length + j) ↔ OccursAt t bracketedPasteStart j := by
    intro j
    unfold OccursAt
    rw [drop_append, drop_eq_nil_of_le (Nat.le_add_right _ _), nil_append, Nat.add_sub_cancel_left]
  cases hfnd : indexOf? t bracketedPasteStart with
  | some i =>
    obtain ⟨-, hocc, hfirst⟩ := (indexOf?_eq_some_iff hne).mp hfnd
    rw [Option.map_some, indexOf?_eq_some_iff hne]
    refine ⟨Nat.zero_le _, (hshi i).mpr hocc, fun j _ hj => ?_⟩
    by_cases hlt : j < u.length
    · exact h j hlt
    · obtain ⟨k, rfl⟩ := Nat.exists_eq_add_of_le (Nat.le_of_not_lt hlt)
      rw [hshi]
      exact hfirst k (Nat.zero_le _) (by omega)
  | none =>
    have hnone := (indexOf?_eq_none_iff hne).mp hfnd
    rw [Option.map_none, indexOf?_eq_none_iff hne]
    intro j _
    by_cases hlt : j < u.length
    · exact h j hlt
    · obtain ⟨k, rfl⟩ := Nat.exists_eq_add_of_le (Nat.le_of_not_lt hlt)
      rw [hshi]
      exact hnone k (Nat.zero_le _)

/-! ### Reading -/

/-- The start of the next token, which is not read yet. -/
def Unfinished (p : Text) : List Token → Prop
  | [] => p = []
  | token :: _ => p <+: token.opening ∧ p ≠ token.opening

/-- What a text that is the start of tokens shows: tokens up to a paste, or up to one that is not finished. -/
inductive Reading (tokens : List Token) (t : Text) : Prop
  | pasted (units rest : List Token) (content : Text) (inside : ¬ bracketedPasteEnd <:+: content) (q : Text) :
      tokens = units ++ .paste content inside :: rest → (∀ token ∈ units, ¬ token.IsPaste) →
      t = textOf units ++ (bracketedPasteStart ++ q) → q <+: content ++ bracketedPasteEnd ++ textOf rest →
      indexOf? t bracketedPasteStart = some (textOf units).length → Reading tokens t
  | unfinished (units rest : List Token) (p : Text) :
      tokens = units ++ rest → (∀ token ∈ units, ¬ token.IsPaste) → t = textOf units ++ p → Unfinished p rest →
      indexOf? t bracketedPasteStart = none → Reading tokens t

theorem not_occursAt_of_length {marker : Text} {j : ℕ} (hne : marker ≠ []) (h : t.length < marker.length) :
    ¬ OccursAt t marker j := fun hocc => by
  have hle := hocc.le_length hne
  omega

theorem indexOf?_nil_of_prefix (hp : t <+: u) (hu : Clean u []) : indexOf? t bracketedPasteStart = none := by
  rw [indexOf?_eq_none_iff bracketedPasteStart_ne_nil]
  intro j _ hocc
  have hle := hocc.le_length bracketedPasteStart_ne_nil
  have hpos := length_pos_iff.mpr bracketedPasteStart_ne_nil
  have hlen := hp.length_le
  refine hu j (by omega) ?_
  rw [append_nil]
  exact hocc.trans (hp.drop j)

/-- **The start of a text of tokens** shows whole tokens and the start of the next one. -/
theorem reading (h : Unforged tokens) (ht : t <+: textOf tokens) : Reading tokens t := by
  induction tokens generalizing t with
  | nil =>
    have hnil : t = [] := prefix_nil.mp ht
    subst hnil
    exact .unfinished [] [] [] rfl (by simp) rfl rfl (by decide)
  | cons token tokens ih =>
    have htext : textOf (token :: tokens) = token.text ++ textOf tokens := rfl
    rw [htext] at ht
    by_cases hpas : token.IsPaste
    · cases token with
      | paste content inside =>
        have hwho : t <+: bracketedPasteStart ++ (content ++ bracketedPasteEnd ++ textOf tokens) := by
          rw [← append_assoc]
          exact ht
        rcases prefix_or_prefix_of_prefix (prefix_append bracketedPasteStart _) hwho with hsta | hshort
        · obtain ⟨q, rfl⟩ := hsta
          refine .pasted [] tokens content inside q rfl (by simp) rfl ((prefix_append_right_inj _).mp hwho) ?_
          rw [indexOf?_eq_some_iff bracketedPasteStart_ne_nil]
          exact ⟨Nat.le_refl _, prefix_append _ _, fun j _ hj => absurd hj (Nat.not_lt_zero _)⟩
        · by_cases heq : t = bracketedPasteStart
          · subst heq
            exact .pasted [] tokens content inside [] rfl (by simp) rfl nil_prefix (by decide)
          · refine .unfinished [] (.paste content inside :: tokens) t rfl (by simp) rfl ⟨hshort, heq⟩ ?_
            rw [indexOf?_eq_none_iff bracketedPasteStart_ne_nil]
            intro j _
            refine not_occursAt_of_length bracketedPasteStart_ne_nil (Nat.lt_of_le_of_ne hshort.length_le ?_)
            exact fun hlen => heq (hshort.eq_of_length hlen)
      | _ => exact absurd hpas id
    rcases prefix_or_prefix_of_prefix (prefix_append token.text _) ht with hwho | hshort
    · obtain ⟨t', rfl⟩ := hwho
      have ht' : t' <+: textOf tokens := (prefix_append_right_inj _).mp ht
      have hcle := h.clean hpas ht'
      rcases ih h.tail ht' with
        ⟨units, rest, content, inside, q, htoks, hun, hq, hpre, hfnd⟩ |
        ⟨units, rest, p, htoks, hun, hp, hunf, hfnd⟩
      · refine .pasted (token :: units) rest content inside q (by rw [htoks]; rfl)
          (forall_mem_cons.mpr ⟨hpas, hun⟩) ?_ hpre ?_
        · rw [hq, ← append_assoc]
          rfl
        · rw [indexOf?_clean hcle, hfnd, Option.map_some, ← length_append]
          rfl
      · refine .unfinished (token :: units) rest p (by rw [htoks]; rfl) (forall_mem_cons.mpr ⟨hpas, hun⟩) ?_ hunf ?_
        · rw [hp, ← append_assoc]
          rfl
        · rw [indexOf?_clean hcle, hfnd, Option.map_none]
    · by_cases heq : t = token.text
      · have hcle := h.clean hpas (w := []) nil_prefix
        rcases ih h.tail (t := []) nil_prefix with
          ⟨units, rest, content, inside, q, htoks, hun, hq, hpre, hfnd⟩ |
          ⟨units, rest, p, htoks, hun, hp, hunf, hfnd⟩
        · exact absurd (congrArg List.length hq) (by simp)
        · refine .unfinished (token :: units) rest p (by rw [htoks]; rfl) (forall_mem_cons.mpr ⟨hpas, hun⟩) ?_ hunf ?_
          · rw [heq, show textOf (token :: units) = token.text ++ textOf units from rfl, append_assoc, ← hp, append_nil]
          · rw [heq]
            exact indexOf?_nil_of_prefix prefix_rfl hcle
      · refine .unfinished [] (token :: tokens) t rfl (by simp) rfl ?_ ?_
        · rw [Unfinished, Token.opening_eq hpas]
          exact ⟨hshort, heq⟩
        · exact indexOf?_nil_of_prefix hshort (h.clean hpas nil_prefix)

theorem first_start : First bracketedPasteStart :=
  @Token.first_csi [0x32, 0x30, 0x30] 0x7E (by decide) (by decide) (by decide) (by decide)

theorem extract_unfinished {p : Text} (h : Unfinished p rest) : extractFrom [] p = ([], p) := by
  cases rest with
  | nil =>
    have hp : p = [] := h
    rw [hp]
    rfl
  | cons token rest =>
    obtain ⟨hpre, hne⟩ := h
    have hfirst : (∃ c, token.opening = [c]) ∨ First token.opening := by
      by_cases hpas : token.IsPaste
      · cases token with
        | paste content inside => exact .inr first_start
        | _ => exact absurd hpas id
      · rw [Token.opening_eq hpas]
        rcases token.first hpas with ⟨c, htext, -⟩ | ⟨hfirst, -⟩
        · exact .inl ⟨c, htext⟩
        · exact .inr hfirst
    rcases hfirst with ⟨c, hc⟩ | hfirst
    · rw [hc] at hpre hne
      rcases prefix_concat_cases (u := []) hpre with rfl | hp
      · exact absurd rfl hne
      · rw [prefix_nil.mp hp]
        rfl
    · refine extractFrom_pending_nil ?_ fun v hv hnil => ?_
      · rcases p with _ | ⟨d, p⟩
        · exact .inl rfl
        · obtain ⟨w, hw⟩ := hpre
          have hhead := hfirst.head
          rw [← hw] at hhead
          exact .inr hhead
      · refine hfirst.shortest v (hv.trans hpre) hnil fun heq => hne ?_
        exact hpre.eq_of_length (Nat.le_antisymm hpre.length_le (heq ▸ hv.length_le))

/-! ### Chunks -/

theorem eventOf_eq (last : Option ℕ) (h : ¬ token.IsPaste) : eventOf last token =
    if rawCodepoint token.text ≠ none ∧ rawCodepoint token.text = last then .suppressed token.text
    else .data token.text := by
  cases token with
  | paste content => exact absurd trivial h
  | _ => rfl

theorem emitDataSequence_token (s : StdinBuffer) (h : ¬ token.IsPaste) :
    s.emitDataSequence token.text = ({ s with
        pendingKittyPrintableCodepoint := lastOf (eventOf s.pendingKittyPrintableCodepoint token) },
        eventOf s.pendingKittyPrintableCodepoint token) := by
  unfold emitDataSequence
  rw [eventOf_eq _ h]
  split
  · rfl
  · rfl

theorem emitAll_tokens (s : StdinBuffer) (h : ∀ token ∈ tokens, ¬ token.IsPaste) : s.emitAll (tokens.map Token.text) =
      ({ s with pendingKittyPrintableCodepoint := lastAfter s.pendingKittyPrintableCodepoint tokens },
        eventsOf s.pendingKittyPrintableCodepoint tokens) := by
  induction tokens generalizing s with
  | nil => rfl
  | cons token tokens ih =>
    obtain ⟨htok, htoks⟩ := forall_mem_cons.mp h
    rw [map_cons, emitAll, emitDataSequence_token s htok]
    dsimp only
    rw [ih _ htoks]
    rfl

theorem eventsOf_append (last : Option ℕ) (tokens rest : List Token) :
    eventsOf last (tokens ++ rest) = eventsOf last tokens ++ eventsOf (lastAfter last tokens) rest := by
  induction tokens generalizing last with
  | nil => rfl
  | cons token tokens ih => rw [cons_append, eventsOf, eventsOf, ih, lastAfter, cons_append]

theorem lastAfter_append (last : Option ℕ) (tokens rest : List Token) :
    lastAfter last (tokens ++ rest) = lastAfter (lastAfter last tokens) rest := by
  induction tokens generalizing last with
  | nil => rfl
  | cons token tokens ih => rw [cons_append, lastAfter, ih, lastAfter]

/-- A buffer inside of a paste: the rest of the tokens' text is still to come. -/
structure Inside (s : StdinBuffer) (content : Text) (rest : List Token) (todo : Text) : Prop where
  mode : s.pasteMode = true
  buffer : s.buffer = []
  pending : s.pendingKittyPrintableCodepoint = none
  ends : ¬ bracketedPasteEnd <:+: content
  text : s.pasteBuffer ++ todo = content ++ bracketedPasteEnd ++ textOf rest

/-- A buffer that has read tokens, and waits for the rest of their text. -/
inductive Waiting (s : StdinBuffer) (tokens : List Token) (todo : Text) : Prop
  | outside : s.pasteMode = false → s.pasteBuffer = [] → Unfinished s.buffer tokens →
      s.buffer ++ todo = textOf tokens → Waiting s tokens todo
  | inside (content : Text) (ends : ¬ bracketedPasteEnd <:+: content) (rest : List Token) :
      tokens = .paste content ends :: rest → Inside s content rest todo →
      s.pasteBuffer.length < content.length + bracketedPasteEnd.length → Waiting s tokens todo

/-- Tokens have been read: their events are emitted, and those of the tokens that are left follow. -/
structure Reads (s : StdinBuffer) (next : StdinBuffer × List Event) (done left : List Token) : Prop where
  events : next.2 = eventsOf s.pendingKittyPrintableCodepoint done
  follow : ∀ more, more <+: left → eventsOf next.1.pendingKittyPrintableCodepoint more =
    eventsOf (lastAfter s.pendingKittyPrintableCodepoint done) more

theorem eventsOf_paste {more : List Token} {ends : ¬ bracketedPasteEnd <:+: content}
    (h : more <+: .paste content ends :: rest) (last last' : Option ℕ) : eventsOf last more = eventsOf last' more := by
  rcases prefix_cons_iff.mp h with rfl | ⟨more, rfl, -⟩
  · rfl
  · rfl

theorem prefix_of_append_eq {todo : Text} (h : t ++ todo = textOf tokens) : t <+: textOf tokens := ⟨todo, h⟩

theorem waiting_collect {s : StdinBuffer} {chunk todo : Text} (h : Waiting s tokens (chunk ++ todo))
    (hu : Unforged tokens) : ∃ done left, tokens = done ++ left ∧
      ((s.collect chunk).1.pasteMode = false ∧ Waiting (s.collect chunk).1 left todo ∧
          Reads s (s.collect chunk) done left ∨
        ∃ content ends rest, left = .paste content ends :: rest ∧ Inside (s.collect chunk).1 content rest todo ∧
          (s.collect chunk).2 = eventsOf s.pendingKittyPrintableCodepoint done) := by
  cases h with
  | inside content ends rest htoks hins hleng =>
    refine ⟨[], tokens, rfl, .inr ⟨content, ends, rest, htoks, ?_, ?_⟩⟩
    · rw [collect_inside hins.mode]
      refine ⟨hins.mode, rfl, hins.pending, ends, ?_⟩
      have htext := hins.text
      rw [hins.buffer, nil_append, append_assoc]
      exact htext
    · rw [collect_inside hins.mode]
      rfl
  | outside hmode hpas hunf htext =>
    rw [← append_assoc] at htext
    rcases reading hu (prefix_of_append_eq htext) with
      ⟨units, rest, content, ends, q, htoks, hun, hq, hpre, hfnd⟩ |
      ⟨units, rest, p, htoks, hun, hp, hrest, hfnd⟩
    · refine ⟨units, .paste content ends :: rest, htoks, .inr ⟨content, ends, rest, rfl, ?_, ?_⟩⟩
      · rw [collect_start hmode hfnd]
        refine ⟨rfl, rfl, rfl, ends, ?_⟩
        have hbeh : (s.buffer ++ chunk).drop ((textOf units).length + bracketedPasteStart.length) = q := by
          rw [hq, ← append_assoc, ← length_append, drop_left]
        dsimp only
        rw [hbeh]
        rw [hq, htoks] at htext
        have hsame : textOf units ++ (bracketedPasteStart ++ (q ++ todo)) =
            textOf units ++ (bracketedPasteStart ++ (content ++ bracketedPasteEnd ++ textOf rest)) := by
          simpa [textOf, Token.text] using htext
        exact append_cancel_left (append_cancel_left hsame)
      · rw [collect_start hmode hfnd]
        have hbef : (s.buffer ++ chunk).take (textOf units).length = textOf units := by
          rw [hq, take_left]
        have hext := extract_tokens hun []
        rw [append_nil] at hext
        dsimp only
        rw [hbef, extractCompleteSequences, hext]
        dsimp only
        rw [extractFrom, append_nil, emitAll_tokens s hun]
    · refine ⟨units, rest, htoks, .inl ?_⟩
      have hext := extract_tokens hun p
      rw [extract_unfinished hrest, append_nil, ← hp] at hext
      rw [collect_plain hmode hfnd, extractCompleteSequences, hext]
      dsimp only
      rw [emitAll_tokens _ hun]
      refine ⟨hmode, .outside hmode hpas hrest ?_, rfl, fun _ _ => rfl⟩
      rw [hp, htoks] at htext
      have hsame : textOf units ++ (p ++ todo) = textOf units ++ textOf rest := by
        simpa [textOf] using htext
      exact append_cancel_left hsame

/-! ### The end of a paste -/

section
variable (h : ¬ bracketedPasteEnd <:+: content)
include h

theorem not_occursAt_end {j : ℕ} (hj : j < content.length) :
    ¬ OccursAt (content ++ bracketedPasteEnd ++ w) bracketedPasteEnd j := by
  intro hocc
  unfold OccursAt at hocc
  rw [append_assoc, drop_append_of_le_length hj.le] at hocc
  by_cases hfits : bracketedPasteEnd.length ≤ (content.drop j).length
  · have hins := prefix_of_prefix_length_le hocc (prefix_append _ _) hfits
    exact h (hins.isInfix.trans (drop_suffix j content).isInfix)
  · -- the marker would have an ESC where the end marker begins
    have hlen : (content.drop j).length = content.length - j := length_drop
    have hesc : bracketedPasteEnd[(content.drop j).length]? = some esc := by
      have hat := (prefix_iff_getElem?.mp hocc) (content.drop j).length (by omega)
      rw [List.getElem?_append_right (Nat.le_refl _), Nat.sub_self] at hat
      rw [List.getElem?_eq_getElem (by omega), ← hat]
      rfl
    have hsize : bracketedPasteEnd.length = 6 := rfl
    have hk : content.length - j = 1 ∨ content.length - j = 2 ∨ content.length - j = 3 ∨ content.length - j = 4 ∨
        content.length - j = 5 := by omega
    rw [hlen] at hesc
    rcases hk with hk | hk | hk | hk | hk
    all_goals
      rw [hk] at hesc
      exact absurd hesc (by decide)

theorem indexOf?_end : indexOf? (content ++ bracketedPasteEnd ++ w) bracketedPasteEnd = some content.length := by
  rw [indexOf?_eq_some_iff bracketedPasteEnd_ne_nil]
  refine ⟨Nat.zero_le _, ?_, fun j _ hj => not_occursAt_end h hj⟩
  unfold OccursAt
  rw [append_assoc, drop_left]
  exact prefix_append _ _

theorem indexOf?_end_short (ht : t <+: content ++ bracketedPasteEnd ++ w)
    (hlt : t.length < content.length + bracketedPasteEnd.length) : indexOf? t bracketedPasteEnd = none := by
  rw [indexOf?_eq_none_iff bracketedPasteEnd_ne_nil]
  intro j _ hocc
  have hle := hocc.le_length bracketedPasteEnd_ne_nil
  exact not_occursAt_end h (by omega) (hocc.trans (ht.drop j))

end

theorem waiting_new {todo : Text} (h : todo = textOf tokens) : Waiting {} tokens todo := by
  refine .outside rfl rfl ?_ (by rw [h]; rfl)
  cases tokens with
  | nil => rfl
  | cons token tokens => exact ⟨ nil_prefix, (token.opening_ne_nil).symm⟩

/-- **A chunk is read**: its whole tokens are emitted, and the rest waits. -/
theorem waiting_process {s : StdinBuffer} {chunk todo : Text} (h : Waiting s tokens (chunk ++ todo))
    (hu : Unforged tokens) (hne : chunk ≠ []) : ∃ done left, tokens = done ++ left ∧
      Waiting (s.process chunk).1 left todo ∧ Reads s (s.process chunk) done left := by
  -- by induction on the text that is held and the chunk, as the rest behind a paste is processed again
  generalize hn : s.buffer.length + s.pasteBuffer.length + chunk.length = n
  induction n using Nat.strong_induction_on generalizing s chunk tokens with
  | _ n ih =>
    have hemp : ¬ (chunk = [] ∧ s.buffer = []) := fun hand => hne hand.1
    obtain ⟨done, left, htoks, ⟨hmode, hwai, hrds⟩ | ⟨content, ends, rest, hleft, hins, heve⟩⟩ := waiting_collect h hu
    · refine ⟨done, left, htoks, ?_⟩
      rw [process_unfinished hemp fun htrue => absurd htrue (by simp [hmode])]
      exact ⟨hwai, hrds⟩
    subst hleft
    by_cases hshort : (s.collect chunk).1.pasteBuffer.length < content.length + bracketedPasteEnd.length
    · refine ⟨done, _, htoks, ?_⟩
      rw [process_unfinished hemp fun _ => indexOf?_end_short ends ⟨todo, hins.text⟩ hshort]
      exact ⟨.inside content ends rest rfl hins hshort, heve, fun more hmore => eventsOf_paste hmore _ _⟩
    · obtain ⟨q, hq⟩ : content ++ bracketedPasteEnd <+: (s.collect chunk).1.pasteBuffer := by
        refine prefix_of_prefix_length_le (prefix_append _ (textOf rest)) ⟨todo, hins.text⟩ ?_
        rw [length_append]
        omega
      have hbeh : q ++ todo = textOf rest := by
        have htext := hins.text
        rw [← hq, append_assoc] at htext
        exact append_cancel_left htext
      have hend : indexOf? (s.collect chunk).1.pasteBuffer bracketedPasteEnd = some content.length := by
        rw [← hq]
        exact indexOf?_end ends
      have htake : (s.collect chunk).1.pasteBuffer.take content.length = content := by
        rw [← hq, append_assoc, take_left]
      have hdrop : (s.collect chunk).1.pasteBuffer.drop (content.length + bracketedPasteEnd.length) = q := by
        rw [← hq, ← length_append, drop_left]
      have hunfo : Unforged rest := by
        rw [htoks] at hu
        exact hu.of_append.tail
      have hrest : ∃ done left, rest = done ++ left ∧ Waiting (processRest q).1 left todo ∧
          Reads {} (processRest q) done left := by
        unfold processRest
        by_cases hnil : q = []
        · rw [if_pos hnil]
          rw [hnil, nil_append] at hbeh
          exact ⟨[], rest, rfl, waiting_new hbeh, rfl, fun _ _ => rfl⟩
        · rw [if_neg hnil]
          refine ih _ ?_ (waiting_new hbeh) hunfo hnil rfl
          have hle := length_pasteBuffer_collect_le s chunk
          have hlen := congrArg List.length hq
          have hsize : bracketedPasteEnd.length = 6 := rfl
          simp only [length_append] at hlen
          simp only [length_nil]
          omega
      obtain ⟨done', left, hspl, hwai, hrds⟩ := hrest
      refine ⟨done ++ .paste content ends :: done', left, by rw [htoks, hspl]; simp, ?_⟩
      rw [process_end hemp hins.mode hend, htake, hdrop]
      refine ⟨hwai, ?_, fun more hmore => ?_⟩
      · rw [eventsOf_append, heve, hrds.events]
        rfl
      · rw [hrds.follow more hmore, lastAfter_append]
        rfl

/-! ### Runs -/

theorem waiting_run (chunks : List Text) {s : StdinBuffer × List Event} (h : Waiting s.1 tokens chunks.flatten)
    (hu : Unforged tokens) (hne : ∀ chunk ∈ chunks, chunk ≠ []) :
    Waiting ((chunks.map Input.chunk).foldl step s).1 [] [] ∧
      ((chunks.map Input.chunk).foldl step s).2 = s.2 ++ eventsOf s.1.pendingKittyPrintableCodepoint tokens := by
  induction chunks generalizing s tokens with
  | nil =>
    have hnil : tokens = [] := by
      cases h with
      | outside hmode hpas hunf htext =>
        cases tokens with
        | nil => rfl
        | cons token tokens =>
          obtain ⟨hpre, hshort⟩ := hunf
          have hope : token.opening <+: textOf (token :: tokens) := by
            cases token <;> exact prefix_append_of_prefix (by
              first | exact prefix_rfl | exact prefix_append _ _)
          rw [flatten_nil, append_nil] at htext
          rw [← htext] at hope
          exact absurd (hpre.eq_of_length (Nat.le_antisymm hpre.length_le hope.length_le)) hshort
      | inside content ends rest htoks hins hleng =>
        have hlen := congrArg List.length hins.text
        simp only [flatten_nil, append_nil, length_append] at hlen
        omega
    subst hnil
    exact ⟨h, (append_nil _).symm⟩
  | cons chunk chunks ih =>
    obtain ⟨hchk, hchu⟩ := forall_mem_cons.mp hne
    rw [flatten_cons] at h
    obtain ⟨done, left, htoks, hwai, hrds⟩ := waiting_process h hu hchk
    subst htoks
    obtain ⟨hend, heve⟩ := ih (s := step s (.chunk chunk)) hwai hu.of_append hchu
    refine ⟨hend, heve.trans ?_⟩
    change s.2 ++ (s.1.process chunk).2 ++ eventsOf (s.1.process chunk).1.pendingKittyPrintableCodepoint left = _
    rw [hrds.events, hrds.follow left prefix_rfl, append_assoc, ← eventsOf_append]

/-- **Tokens do not depend on chunks.** However the text of tokens is split, the events are those of the tokens and
nothing is left in the buffer. -/
theorem tokens_of_chunks (tokens : List Token) (chunks : List Text) (hu : Unforged tokens)
    (hne : ∀ chunk ∈ chunks, chunk ≠ []) (htext : chunks.flatten = textOf tokens) :
    (run (chunks.map .chunk)).2 = eventsOf none tokens ∧
      (run (chunks.map .chunk)).1.buffer = [] ∧ (run (chunks.map .chunk)).1.pasteMode = false ∧
      (run (chunks.map .chunk)).1.pasteBuffer = [] := by
  obtain ⟨hwai, heve⟩ := waiting_run (s := ({}, [])) chunks (waiting_new htext) hu hne
  refine ⟨heve, ?_⟩
  cases hwai with
  | outside hmode hpas hunf htext => exact ⟨hunf, hmode, hpas⟩
  | inside content ends rest htoks => cases htoks

/-- The key `a` as a report and as a character, and a paste whose markers and text are cut. -/
theorem key_and_paste_of_chunks :
    (run ([[esc, openBracket, 0x39], [0x37, lowerU, 0x61, esc], [openBracket, 0x32, 0x30], [0x30, 0x7E, 0x62, esc],
      [0x63, esc, openBracket, 0x32, 0x30], [0x31, 0x7E]].map .chunk)).2 =
      [.data [esc, openBracket, 0x39, 0x37, lowerU], .suppressed [0x61], .paste [0x62, esc, 0x63]] := by
  have htoks := (tokens_of_chunks
    [.csi [0x39, 0x37] lowerU (by decide) (by decide) (by decide) (by decide) (by decide) (by decide),
      .char 0x61 (by decide), .paste [0x62, esc, 0x63] (by decide)]
    [[esc, openBracket, 0x39], [0x37, lowerU, 0x61, esc], [openBracket, 0x32, 0x30], [0x30, 0x7E, 0x62, esc],
      [0x63, esc, openBracket, 0x32, 0x30], [0x31, 0x7E]]
    (by unfold Unforged; decide) (by decide) (by decide)).1
  exact htoks.trans (by decide)

/-- **A paste marker inside of a token.** The `ESC` behind `ESC O` makes a marker with the characters behind it. -/
theorem tokens_of_chunks_fails : ¬ ∀ (tokens : List Token) (chunks : List Text), (∀ chunk ∈ chunks, chunk ≠ []) →
      chunks.flatten = textOf tokens → (run (chunks.map .chunk)).2 = eventsOf none tokens ∧
        (run (chunks.map .chunk)).1.buffer = [] := by
  intro h
  have hfor := (h [.ss3 esc, .char openBracket (by decide), .char 0x32 (by decide), .char 0x30 (by decide),
    .char 0x30 (by decide), .char 0x7E (by decide)] [[esc, upperO] ++ bracketedPasteStart] (by decide) rfl).1
  have hrun : run [.chunk ([esc, upperO] ++ bracketedPasteStart)] = ({ pasteMode := true }, []) := by
    have hcol : collect {} ([esc, upperO] ++ bracketedPasteStart) = ({ pasteMode := true }, []) := by
      rw [collect_start (i := 2) rfl (by decide)]
      rfl
    change (process {} ([esc, upperO] ++ bracketedPasteStart)) = _
    rw [process_unfinished (by decide) (by rw [hcol]; decide), hcol]
  rw [map_cons, map_nil, hrun] at hfor
  cases hfor

end Stdin
end EasyPi.Tui
