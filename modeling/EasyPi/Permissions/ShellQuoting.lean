/-
# Quoting and scanning

A script that is written with quoted words, separators and here-documents is scanned into exactly these words
and commands; its here-documents add and take away nothing.
-/
import EasyPi.Permissions.ShellWords

namespace EasyPi.Permissions

open List

/-! ### Texts -/

inductive Blank where
  | space | tab
  deriving DecidableEq

def Blank.unit : Blank → UInt16
  | space => Permissions.space
  | tab => Permissions.tab

def blanksText (blanks : List Blank) : Text := blanks.map Blank.unit

def escapeUnit (c : UInt16) : Text :=
  if c = singleQuote then [singleQuote, backslash, singleQuote, singleQuote] else [c]

/-- A code unit that means itself in double quotes. -/
def isLiteral (c : UInt16) : Bool := c ∉ [backslash, doubleQuote, dollar, backquote]

structure QuotedWord where
  text : Text
  quote : Quote
  literal : quote = .double → ∀ c ∈ text, isLiteral c = true

def textParts (text : Text) (expandable : Bool) : List Part := if text = [] then [] else [⟨text, expandable⟩]

namespace QuotedWord

def render (word : QuotedWord) : Text :=
  match word.quote with
  | .single => singleQuote :: word.text.flatMap escapeUnit ++ [singleQuote]
  | .double => doubleQuote :: word.text ++ [doubleQuote]

/-- What is in single quotes is not expanded. -/
def expandable (word : QuotedWord) : Bool := word.quote = .double

def word (word : QuotedWord) : Word := ⟨textParts word.text word.expandable⟩

end QuotedWord

def isNameUnit (c : UInt16) : Bool := (48 ≤ c && c ≤ 57) || (65 ≤ c && c ≤ 90) || c = 95 || (97 ≤ c && c ≤ 122)

/-- The delimiter of a here-document: a quoted word or a name. -/
inductive Delimiter where
  | quoted (word : QuotedWord)
  | name (text : Text) (nonempty : text ≠ []) (units : ∀ c ∈ text, isNameUnit c = true)

def Delimiter.text : Delimiter → Text
  | quoted word => word.text
  | name text _ _ => text

def Delimiter.render : Delimiter → Text
  | quoted word => word.render
  | name text _ _ => text

/-- A here-document: its delimiter is a line that closes it, and no line of its body does. -/
structure HeredocText where
  stripTabs : Bool
  gap : List Blank
  delimiter : Delimiter
  body : List Text
  line : lf ∉ delimiter.text
  closes : candidate stripTabs delimiter.text = delimiter.text
  lines : ∀ line ∈ body, lf ∉ line
  inside : ∀ line ∈ body, candidate stripTabs line ≠ delimiter.text

namespace HeredocText

def start (heredoc : HeredocText) : Text :=
  less :: less :: ((if heredoc.stripTabs then [dash] else []) ++ blanksText heredoc.gap ++ heredoc.delimiter.render)

/-- What stands behind the line of the command. -/
def bodyText (heredoc : HeredocText) : Text := heredoc.body.flatMap (· ++ [lf]) ++ (heredoc.delimiter.text ++ [lf])

def heredoc (heredoc : HeredocText) : Heredoc := ⟨heredoc.delimiter.text, heredoc.stripTabs⟩

end HeredocText

/-- A command: words with blanks between them, and here-documents. -/
structure CommandText where
  first : QuotedWord
  more : List (Blank × List Blank × QuotedWord) := []
  heredocs : List (List Blank × HeredocText) := []

namespace CommandText

def render (command : CommandText) : Text :=
  command.first.render ++ command.more.flatMap (fun word => blanksText (word.1 :: word.2.1) ++ word.2.2.render) ++
    command.heredocs.flatMap fun heredoc => blanksText heredoc.1 ++ heredoc.2.start

def words (command : CommandText) : List Word := command.first.word :: command.more.map (·.2.2.word)

def texts (command : CommandText) : List Text := command.first.text :: command.more.map (·.2.2.text)

end CommandText

inductive Separator where
  | newline | semicolon | pipe | background | or | and
  deriving DecidableEq

def Separator.operator : Separator → Operator
  | newline => .newline
  | semicolon => .semicolon
  | pipe => .pipe
  | background => .background
  | or => .or
  | and => .and

def Separator.render : Separator → Text
  | newline => [lf]
  | semicolon => [Permissions.semicolon]
  | pipe => [bar]
  | background => [ampersand]
  | or => [bar, bar]
  | and => [ampersand, ampersand]

/-- A command behind a separator, with blanks around it. -/
structure NextCommand where
  before : List Blank := []
  separator : Separator
  behind : List Blank := []
  command : CommandText

/-- A script: commands with separators between them. -/
structure ScriptText where
  first : CommandText
  more : List NextCommand

def bodiesText (pending : List HeredocText) : Text := pending.flatMap (·.bodyText)

/-- The commands behind the first; the bodies of here-documents follow the next line break. -/
def renderRest : List HeredocText → List NextCommand → Text
  | pending, [] => if pending = [] then [] else lf :: bodiesText pending
  | pending, next :: more =>
    let open' := if next.separator = .newline then [] else pending
    blanksText next.before ++ next.separator.render ++
      (if next.separator = .newline then bodiesText pending else []) ++ blanksText next.behind ++
      next.command.render ++ renderRest (open' ++ next.command.heredocs.map (·.2)) more

namespace ScriptText

def render (script : ScriptText) : Text := script.first.render ++ renderRest (script.first.heredocs.map (·.2)) script.more

def commands (script : ScriptText) : List Command :=
  ⟨script.first.words, none⟩ :: script.more.map fun next => ⟨next.command.words, some next.separator.operator⟩

def texts (script : ScriptText) : List (List Text) := script.first.texts :: script.more.map (·.command.texts)

def withoutHeredocs (script : ScriptText) : ScriptText where
  first := { script.first with heredocs := [] }
  more := script.more.map fun next => { next with command := { next.command with heredocs := [] } }

end ScriptText

/-- A command with a here-document behind it, and nothing else. -/
def withHeredoc (command : CommandText) (delimiter : QuotedWord) (body : List Text) : Text :=
  command.render ++ [space, less, less] ++ delimiter.render ++ [lf] ++ body.flatMap (· ++ [lf]) ++ delimiter.text

theorem lineOf_append {line rest : Text} (h : lf ∉ line) : lineOf (line ++ lf :: rest) = line := by
  have hall : ∀ c ∈ line, decide (c ≠ lf) = true := fun c hc => decide_eq_true (ne_of_mem_of_not_mem hc h)
  rw [lineOf, takeWhile_append_of_pos hall, takeWhile_cons_of_neg (by simp), append_nil]

theorem afterLine_append {line rest : Text} (h : lf ∉ line) : afterLine (line ++ lf :: rest) = rest := by
  have hall : ∀ c ∈ line, decide (c ≠ lf) = true := fun c hc => decide_eq_true (ne_of_mem_of_not_mem hc h)
  rw [afterLine, dropWhile_append_of_pos hall, dropWhile_cons_of_neg (by simp), tail_cons]

theorem skipHeredocBody_line {heredoc : Heredoc} {line rest : Text} (h : lf ∉ line) :
    skipHeredocBody heredoc (line ++ lf :: rest) =
      if candidate heredoc.stripTabs line = heredoc.delimiter then rest else skipHeredocBody heredoc rest := by
  have hline := @lineOf_append line rest h
  have haft := @afterLine_append line rest h
  cases htext : line ++ lf :: rest with
  | nil => exact absurd htext (append_ne_nil_of_right_ne_nil _ (cons_ne_nil _ _))
  | cons c text =>
    rw [htext] at hline haft
    rw [skipHeredocBody, hline, haft]

/-- **A body is skipped** up to its delimiter. -/
theorem skipHeredocBody_bodyText (heredoc : HeredocText) (rest : Text) :
    skipHeredocBody heredoc.heredoc (heredoc.bodyText ++ rest) = rest := by
  obtain ⟨stripTabs, gap, delimiter, body, hline, hclos, hlns, hins⟩ := heredoc
  simp only [HeredocText.heredoc, HeredocText.bodyText]
  induction body with
  | nil =>
    rw [flatMap_nil, nil_append, append_assoc, singleton_append, skipHeredocBody_line hline, if_pos hclos]
  | cons line body ih =>
    obtain ⟨hfst, hlat⟩ := forall_mem_cons.mp hlns
    obtain ⟨hopen, hrest⟩ := forall_mem_cons.mp hins
    have hstep := @skipHeredocBody_line ⟨delimiter.text, stripTabs⟩ line
      (body.flatMap (· ++ [lf]) ++ (delimiter.text ++ [lf]) ++ rest) hfst
    rw [if_neg hopen, ih hlat hrest] at hstep
    refine (congrArg _ ?_).trans hstep
    simp only [flatMap_cons, append_assoc, cons_append, nil_append]

theorem skipHeredocBodies_bodies (pending : List HeredocText) (rest : Text) :
    skipHeredocBodies (pending.map (·.heredoc)) (bodiesText pending ++ rest) = rest := by
  induction pending with
  | nil => rfl
  | cons heredoc pending ih =>
    rw [bodiesText, flatMap_cons, append_assoc, map_cons, skipHeredocBodies, foldl_cons, skipHeredocBody_bodyText]
    exact ih

/-! ### Scanning -/

/-- **A text takes a scan from one state to another**, whatever follows it. -/
def Scans (s : Scan) (text : Text) (s' : Scan) : Prop := ∀ rest, scan s (text ++ rest) = scan s' rest

theorem Scans.nil (s : Scan) : Scans s [] s := fun _ => rfl

theorem Scans.append {s s' s'' : Scan} {text more : Text} (h : Scans s text s') (h' : Scans s' more s'') :
    Scans s (text ++ more) s'' := by
  intro rest
  rw [append_assoc, h, h']

theorem scan_cons (s : Scan) (c : UInt16) (rest : Text) :
    scan s (c :: rest) = scan (step s c rest).1 (step s c rest).2 := by
  rw [scan]

theorem scans_unit {s s' : Scan} {c : UInt16} (h : ∀ rest, step s c rest = (s', rest)) : Scans s [c] s' := by
  intro rest
  rw [singleton_append, scan_cons, h]

def Progress.between (progress : Progress) : Scan := { progress with }

def Progress.inWord (progress : Progress) (text : Text) (expandable : Bool) (quote : Option Quote) : Scan :=
  { progress with parts := textParts text expandable, wordStarted := true, quote }

section
variable {p p' : Progress} {s : Scan} {text : Text} {c : UInt16} {e : Bool}

theorem textParts_append (text : Text) (c : UInt16) (e : Bool) :
    appendPart (textParts text e) [c] e = textParts (text ++ [c]) e := by
  by_cases h : text = []
  · rw [h]
    rfl
  · rw [textParts, if_neg h, textParts, if_neg (append_ne_nil_of_left_ne_nil h _)]
    change (if e = e then _ else _) = _
    rw [if_pos rfl]
    rfl

theorem append_inWord (p : Progress) (text : Text) (e : Bool) (quote : Option Quote) (c : UInt16) :
    (p.inWord text e quote).append [c] e = p.inWord (text ++ [c]) e quote := by
  rw [Progress.inWord, Progress.inWord, ← textParts_append]
  rfl

theorem scans_escaped (p : Progress) (read text : Text) :
    Scans (p.inWord read false (some .single)) (text.flatMap escapeUnit)
      (p.inWord (read ++ text) false (some .single)) := by
  induction text generalizing read with
  | nil =>
    rw [append_nil]
    exact .nil _
  | cons c text ih =>
    have hunit : Scans (p.inWord read false (some .single)) (escapeUnit c)
        (p.inWord (read ++ [c]) false (some .single)) := by
      rw [escapeUnit]
      split
      · rename_i hquo
        have hclo : Scans (p.inWord read false (some .single)) [singleQuote] (p.inWord read false none) :=
          scans_unit fun rest => rfl
        have hopen : Scans (p.inWord (read ++ [c]) false none) [singleQuote]
            (p.inWord (read ++ [c]) false (some .single)) := scans_unit fun rest => rfl
        have hesc : Scans (p.inWord read false none) [backslash, singleQuote] (p.inWord (read ++ [c]) false none) := by
          intro rest
          rw [← append_inWord, hquo]
          rw [cons_append, singleton_append, scan_cons]
          rfl
        exact (hclo.append hesc).append hopen
      · rename_i hquo
        refine scans_unit fun rest => ?_
        rw [← append_inWord]
        change (if c = singleQuote then _ else _) = _
        rw [if_neg hquo]
    have hall := hunit.append (ih (read ++ [c]))
    rw [append_assoc] at hall
    exact hall

theorem scans_literal (p : Progress) (read : Text) {text : Text} (h : ∀ c ∈ text, isLiteral c = true) :
    Scans (p.inWord read true (some .double)) text (p.inWord (read ++ text) true (some .double)) := by
  induction text generalizing read with
  | nil =>
    rw [append_nil]
    exact .nil _
  | cons c text ih =>
    obtain ⟨hc, htext⟩ := forall_mem_cons.mp h
    simp only [isLiteral, decide_eq_true_eq, mem_cons, not_or] at hc
    have hunit : Scans (p.inWord read true (some .double)) [c] (p.inWord (read ++ [c]) true (some .double)) := by
      refine scans_unit fun rest => ?_
      rw [← append_inWord]
      change (if c = doubleQuote then _ else if c = backslash ∧ rest ≠ [] then _ else _) = _
      rw [if_neg hc.2.1, if_neg fun h => hc.1 h.1]
    have hall := hunit.append (ih (read ++ [c]) htext)
    rw [append_assoc] at hall
    exact hall

/-- **A quoted word** is read as its text. -/
theorem scans_quotedWord (p : Progress) (word : QuotedWord) :
    Scans p.between word.render (p.inWord word.text word.expandable none) := by
  obtain ⟨text, quote, hlit⟩ := word
  cases quote with
  | single =>
    have hopen : Scans p.between [singleQuote] (p.inWord [] false (some .single)) := scans_unit fun rest => rfl
    have hclo : Scans (p.inWord text false (some .single)) [singleQuote] (p.inWord text false none) :=
      scans_unit fun rest => rfl
    exact (hopen.append (scans_escaped p [] text)).append hclo
  | double =>
    have hopen : Scans p.between [doubleQuote] (p.inWord [] true (some .double)) := scans_unit fun rest => rfl
    have hclo : Scans (p.inWord text true (some .double)) [doubleQuote] (p.inWord text true none) :=
      scans_unit fun rest => rfl
    exact (hopen.append (scans_literal p [] (hlit rfl))).append hclo

theorem isNameUnit_ordinary (h : isNameUnit c = true) :
    c ∉ [singleQuote, doubleQuote, backslash, hash, less] ∧ isWhiteSpace c = false ∧ ∀ d, operatorOf c d = none := by
  have hbd : c.toNat < 128 := by
    simp only [isNameUnit, Bool.or_eq_true, Bool.and_eq_true, decide_eq_true_eq, UInt16.le_iff_toNat_le] at h
    have h₁ : (57 : UInt16).toNat = 57 := rfl
    have h₂ : (90 : UInt16).toNat = 90 := rfl
    have h₃ : (122 : UInt16).toNat = 122 := rfl
    rcases h with ((h | h) | rfl) | h
    · omega
    · omega
    · decide
    · omega
  have hall := (show ∀ n : Fin 128, isNameUnit (UInt16.ofNat n) = true →
      UInt16.ofNat n ∉ [singleQuote, doubleQuote, backslash, hash, less] ∧ isWhiteSpace (UInt16.ofNat n) = false ∧
        ∀ d, operatorOf (UInt16.ofNat n) d = none by decide +kernel) ⟨c.toNat, hbd⟩
  rw [UInt16.ofNat_toNat] at hall
  exact hall h

theorem stepUnquoted_name (s : Scan) (h : isNameUnit c = true) (rest : Text) :
    stepUnquoted s c rest = (s.append [c] true, rest) := by
  obtain ⟨hspecial, hspa, hope⟩ := isNameUnit_ordinary h
  simp only [mem_cons, not_mem_nil, or_false, not_or] at hspecial
  obtain ⟨h₁, h₂, h₃, h₄, h₅⟩ := hspecial
  rw [stepUnquoted, if_neg h₁, if_neg h₂, if_neg fun h => h₃ h.1, if_neg fun h => h₄ h.1, if_neg fun h => h₅ h.1,
    hspa, if_neg Bool.false_ne_true]
  dsimp only
  rw [hope]

theorem scans_name (p : Progress) {text : Text} (hne : text ≠ []) (h : ∀ c ∈ text, isNameUnit c = true) :
    Scans p.between text (p.inWord text true none) := by
  have hmore : ∀ read text, (∀ c ∈ text, isNameUnit c = true) →
      Scans (p.inWord read true none) text (p.inWord (read ++ text) true none) := by
    intro read text h
    induction text generalizing read with
    | nil =>
      rw [append_nil]
      exact .nil _
    | cons c text ih =>
      obtain ⟨hc, htext⟩ := forall_mem_cons.mp h
      have hunit : Scans (p.inWord read true none) [c] (p.inWord (read ++ [c]) true none) := by
        refine scans_unit fun rest => ?_
        rw [← append_inWord]
        exact stepUnquoted_name _ hc rest
      have hall := hunit.append (ih (read ++ [c]) htext)
      rw [append_assoc] at hall
      exact hall
  cases text with
  | nil => exact absurd rfl hne
  | cons c text =>
    obtain ⟨hc, htext⟩ := forall_mem_cons.mp h
    have hfst : Scans p.between [c] (p.inWord [c] true none) := scans_unit fun rest => stepUnquoted_name _ hc rest
    exact hfst.append (hmore [c] text htext)

/-! ### The ends of words -/

/-- The scan is outside of quotes; when its word is finished, it has made some progress. -/
structure Ends (s : Scan) (p : Progress) : Prop where
  quote : s.quote = none
  finish : s.finishWord = p.between

theorem ends_between (p : Progress) : Ends p.between p := ⟨rfl, rfl⟩

theorem ends_inWord (p : Progress) (text : Text) (e : Bool) :
    Ends (p.inWord text e none) (p.push ⟨textParts text e⟩) := ⟨rfl, rfl⟩

theorem Ends.step_eq (h : Ends s p) (c : UInt16) (rest : Text) : step s c rest = stepUnquoted s c rest := by
  rw [step, h.quote]

theorem scans_blank (h : Ends s p) (blank : Blank) : Scans s [blank.unit] p.between := by
  refine scans_unit fun rest => ?_
  rw [h.step_eq, ← h.finish]
  cases blank <;> rfl

theorem scans_blanks (p : Progress) (blanks : List Blank) : Scans p.between (blanksText blanks) p.between := by
  induction blanks with
  | nil => exact .nil _
  | cons blank blanks ih => exact (scans_blank (ends_between p) blank).append ih

theorem scans_gap (h : Ends s p) (blank : Blank) (blanks : List Blank) :
    Scans s (blanksText (blank :: blanks)) p.between :=
  (scans_blank h blank).append (scans_blanks p blanks)

theorem exists_scans_blanks (h : Ends s p) (blanks : List Blank) : ∃ s', Scans s (blanksText blanks) s' ∧ Ends s' p := by
  cases blanks with
  | nil => exact ⟨s, .nil s, h⟩
  | cons blank blanks => exact ⟨p.between, scans_gap h blank blanks, ends_between p⟩

theorem push_word (h : p.heredocTarget = none) (word : Word) : p.push word = { p with words := p.words ++ [word] } := by
  rw [Progress.push, h]

theorem exists_scans_words (h : Ends s p) (htgt : p.heredocTarget = none)
    (more : List (Blank × List Blank × QuotedWord)) :
    ∃ s', Scans s (more.flatMap fun word => blanksText (word.1 :: word.2.1) ++ word.2.2.render) s' ∧
      Ends s' { p with words := p.words ++ more.map (·.2.2.word) } := by
  induction more generalizing s p with
  | nil =>
    rw [map_nil, append_nil]
    exact ⟨s, .nil s, h⟩
  | cons word more ih =>
    obtain ⟨blank, blanks, word⟩ := word
    have hword := (scans_gap h blank blanks).append (scans_quotedWord p word)
    have hends := ends_inWord p word.text word.expandable
    rw [push_word htgt] at hends
    obtain ⟨s', hmore, hends'⟩ := ih hends htgt
    refine ⟨s', hword.append hmore, ?_⟩
    rw [append_assoc] at hends'
    exact hends'

/-! ### Here-documents and separators -/

theorem shellWordText_textParts (text : Text) (e : Bool) : shellWordText ⟨textParts text e⟩ = text := by
  rw [shellWordText, textParts]
  split
  · rename_i h
    rw [h]
    rfl
  · rw [flatMap_singleton]

theorem QuotedWord.exists_render (word : QuotedWord) :
    ∃ c rest, word.render = c :: rest ∧ (c = singleQuote ∨ c = doubleQuote) := by
  obtain ⟨text, quote, hlit⟩ := word
  cases quote with
  | single => exact ⟨_, _, rfl, .inl rfl⟩
  | double => exact ⟨_, _, rfl, .inr rfl⟩

theorem head_ne_dash (gap : List Blank) (delimiter : Delimiter) (rest : Text) :
    (blanksText gap ++ delimiter.render ++ rest).head? ≠ some dash := by
  cases gap with
  | cons blank gap => cases blank <;> exact fun h => absurd (Option.some_inj.mp h) (by decide)
  | nil =>
    cases delimiter with
    | quoted word =>
      obtain ⟨c, tail, hren, hc⟩ := word.exists_render
      have htext : blanksText [] ++ (Delimiter.quoted word).render ++ rest = c :: (tail ++ rest) := by
        change word.render ++ rest = _
        rw [hren, cons_append]
      rw [htext]
      rintro ⟨⟩
      rcases hc with hc | hc
      · exact absurd hc (by decide)
      · exact absurd hc (by decide)
    | name text hne hun =>
      cases text with
      | nil => exact absurd rfl hne
      | cons c text =>
        rintro ⟨⟩
        exact absurd (hun _ (mem_cons_self ..)) (by decide)

theorem scan_heredoc (h : Ends s p) (stripTabs : Bool) {rest : Text} (hrest : rest.head? ≠ some dash) :
    scan s (less :: less :: ((if stripTabs then [dash] else []) ++ rest)) =
      scan { p with heredocTarget := some stripTabs : Progress }.between rest := by
  rw [scan_cons, h.step_eq]
  cases stripTabs with
  | true =>
    have hstep : stepUnquoted s less (less :: dash :: rest) =
        ({ s.finishWord with heredocTarget := some true }, rest) := rfl
    change scan (stepUnquoted s less (less :: dash :: rest)).1 (stepUnquoted s less (less :: dash :: rest)).2 = _
    rw [hstep, h.finish]
    rfl
  | false =>
    have hstep : stepUnquoted s less (less :: rest) =
        ({ s.finishWord with heredocTarget := some (decide (rest.head? = some dash)) },
          if rest.head? = some dash then rest.tail else rest) := rfl
    change scan (stepUnquoted s less (less :: rest)).1 (stepUnquoted s less (less :: rest)).2 = _
    rw [hstep, h.finish, if_neg hrest, decide_eq_false hrest]
    rfl

theorem exists_scans_delimiter (p : Progress) (delimiter : Delimiter) :
    ∃ e, Scans p.between delimiter.render (p.inWord delimiter.text e none) := by
  cases delimiter with
  | quoted word => exact ⟨word.expandable, scans_quotedWord p word⟩
  | name text hne hun => exact ⟨true, scans_name p hne hun⟩

/-- **A here-document** leaves the words as they are. -/
theorem exists_scans_start (h : Ends s p) (htgt : p.heredocTarget = none) (heredoc : HeredocText) :
    ∃ s', Scans s heredoc.start s' ∧ Ends s' { p with heredocs := p.heredocs ++ [heredoc.heredoc] } := by
  obtain ⟨e, hdel⟩ := exists_scans_delimiter { p with heredocTarget := some heredoc.stripTabs } heredoc.delimiter
  refine ⟨Progress.inWord { p with heredocTarget := some heredoc.stripTabs } heredoc.delimiter.text e none,
    fun rest => ?_, ?_⟩
  · have hhead := head_ne_dash heredoc.gap heredoc.delimiter rest
    have hpre := scan_heredoc h heredoc.stripTabs hhead
    have hgap := ((scans_blanks { p with heredocTarget := some heredoc.stripTabs } heredoc.gap).append hdel) rest
    rw [hgap] at hpre
    refine (congrArg _ ?_).trans hpre
    simp only [HeredocText.start, cons_append, append_assoc]
  · have hends := ends_inWord { p with heredocTarget := some heredoc.stripTabs } heredoc.delimiter.text e
    rw [Progress.push, shellWordText_textParts] at hends
    obtain ⟨commands, words, operatorBefore, heredocTarget, heredocs⟩ := p
    cases htgt
    exact hends

theorem exists_scans_heredocs (h : Ends s p) (htgt : p.heredocTarget = none)
    (heredocs : List (List Blank × HeredocText)) :
    ∃ s', Scans s (heredocs.flatMap fun heredoc => blanksText heredoc.1 ++ heredoc.2.start) s' ∧
      Ends s' { p with heredocs := p.heredocs ++ heredocs.map (·.2.heredoc) } := by
  induction heredocs generalizing s p with
  | nil =>
    rw [map_nil, append_nil]
    exact ⟨s, .nil s, h⟩
  | cons heredoc heredocs ih =>
    obtain ⟨blanks, heredoc⟩ := heredoc
    obtain ⟨s₁, hbla, hends₁⟩ := exists_scans_blanks h blanks
    obtain ⟨s₂, hpre, hends₂⟩ := exists_scans_start hends₁ htgt heredoc
    obtain ⟨s₃, hmore, hends₃⟩ := ih hends₂ htgt
    refine ⟨s₃, (hbla.append hpre).append hmore, ?_⟩
    rw [append_assoc] at hends₃
    exact hends₃

/-- **A command** is read as its words. -/
theorem exists_scans_command (htgt : p.heredocTarget = none) (command : CommandText) :
    ∃ s', Scans p.between command.render s' ∧ Ends s' { p with
        words := p.words ++ command.words
        heredocs := p.heredocs ++ command.heredocs.map (·.2.heredoc) } := by
  have hfst := scans_quotedWord p command.first
  have hends := ends_inWord p command.first.text command.first.expandable
  rw [push_word htgt] at hends
  obtain ⟨s₁, hwor, hends₁⟩ := exists_scans_words hends htgt command.more
  obtain ⟨s₂, hher, hends₂⟩ := exists_scans_heredocs hends₁ htgt command.heredocs
  refine ⟨s₂, (hfst.append hwor).append hher, ?_⟩
  rw [append_assoc] at hends₂
  exact hends₂

theorem scan_separator (h : Ends s p) {separator : Separator} (hnl : separator ≠ .newline) {rest : Text}
    (hbar : rest.head? ≠ some bar) (hamp : rest.head? ≠ some ampersand) :
    scan s (separator.render ++ rest) = scan (p.finish (some separator.operator)).between rest := by
  have hfin (operator : Operator) : s.finishCommand (some operator) = (p.finish (some operator)).between := by
    rw [Scan.finishCommand, h.finish]
    rfl
  have hsgl (c : UInt16) (hc : c = bar ∨ c = ampersand) : ¬ (rest.head? = some c ∧ (c = bar ∨ c = ampersand)) := by
    rintro ⟨hhead, -⟩
    rcases hc with rfl | rfl
    · exact hbar hhead
    · exact hamp hhead
  cases separator with
  | newline => exact absurd rfl hnl
  | semicolon =>
    have hnot : ¬ (rest.head? = some semicolon ∧ (semicolon = bar ∨ semicolon = ampersand)) :=
      fun hdou => absurd hdou.2 (by decide)
    have hstep : stepUnquoted s semicolon rest = (s.finishCommand (some .semicolon),
        if rest.head? = some semicolon ∧ (semicolon = bar ∨ semicolon = ampersand) then rest.tail else rest) := rfl
    change scan s (semicolon :: rest) = _
    rw [scan_cons, h.step_eq, hstep, if_neg hnot, hfin]
    rfl
  | pipe =>
    have hnot := hsgl bar (.inl rfl)
    have hstep : stepUnquoted s bar rest = (s.finishCommand (some
        (if decide (rest.head? = some bar ∧ (bar = bar ∨ bar = ampersand)) then .or else .pipe)),
        if rest.head? = some bar ∧ (bar = bar ∨ bar = ampersand) then rest.tail else rest) := rfl
    change scan s (bar :: rest) = _
    rw [scan_cons, h.step_eq, hstep, decide_eq_false hnot, if_neg hnot, hfin]
    rfl
  | background =>
    have hnot := hsgl ampersand (.inr rfl)
    have hstep : stepUnquoted s ampersand rest = (s.finishCommand (some
        (if decide (rest.head? = some ampersand ∧ (ampersand = bar ∨ ampersand = ampersand)) then .and
          else .background)),
        if rest.head? = some ampersand ∧ (ampersand = bar ∨ ampersand = ampersand) then rest.tail else rest) := rfl
    change scan s (ampersand :: rest) = _
    rw [scan_cons, h.step_eq, hstep, decide_eq_false hnot, if_neg hnot, hfin]
    rfl
  | or =>
    have hstep : stepUnquoted s bar (bar :: rest) = (s.finishCommand (some .or), rest) := rfl
    change scan s (bar :: bar :: rest) = _
    rw [scan_cons, h.step_eq, hstep, hfin]
    rfl
  | and =>
    have hstep : stepUnquoted s ampersand (ampersand :: rest) = (s.finishCommand (some .and), rest) := rfl
    change scan s (ampersand :: ampersand :: rest) = _
    rw [scan_cons, h.step_eq, hstep, hfin]
    rfl

theorem scan_newline (h : Ends s p) (rest : Text) : scan s (lf :: rest) =
      scan { p.finish (some .newline) with heredocs := [] : Progress }.between (skipHeredocBodies p.heredocs rest) := by
  have hstep : stepUnquoted s lf rest = ({ s.finishWord.finishCommand (some .newline) with heredocs := [] },
      skipHeredocBodies (s.finishWord.finishCommand (some .newline)).heredocs rest) := rfl
  rw [scan_cons, h.step_eq, hstep, h.finish]
  rfl

/-! ### Scripts -/

theorem head_command (blanks : List Blank) (command : CommandText) (rest : Text) {d : UInt16}
    (hd : d = bar ∨ d = ampersand) : (blanksText blanks ++ (command.render ++ rest)).head? ≠ some d := by
  cases blanks with
  | cons blank blanks =>
    rintro ⟨⟩
    rcases hd with hd | hd
    · cases blank <;> exact absurd hd (by decide)
    · cases blank <;> exact absurd hd (by decide)
  | nil =>
    obtain ⟨c, tail, hren, hc⟩ := command.first.exists_render
    have hhead : (blanksText [] ++ (command.render ++ rest)).head? = some c := by
      rw [CommandText.render, hren]
      rfl
    rw [hhead, Ne, Option.some_inj]
    rintro rfl
    rcases hc with rfl | rfl
    · exact absurd hd (by decide)
    · exact absurd hd (by decide)

theorem finish_words (hwor : p.words ≠ []) (operator : Option Operator) : p.finish operator =
      { p with
        commands := p.commands ++ [⟨p.words, p.operatorBefore⟩]
        words := []
        operatorBefore := operator } := by
  rw [Progress.finish, if_neg hwor]

def stillOpen (separator : Separator) (pending : List HeredocText) : List HeredocText :=
  if separator = .newline then [] else pending

/-- **A separator** ends the command, and with a line break its here-documents. -/
theorem scan_next (h : Ends s p) (hwor : p.words ≠ []) {pending : List HeredocText}
    (hpend : p.heredocs = pending.map (·.heredoc)) (separator : Separator) {rest : Text}
    (hrest : ∀ d, d = bar ∨ d = ampersand → rest.head? ≠ some d) :
    scan s (separator.render ++ ((if separator = .newline then bodiesText pending else []) ++ rest)) = scan { p with
        commands := p.commands ++ [⟨p.words, p.operatorBefore⟩]
        words := []
        operatorBefore := some separator.operator
        heredocs := (stillOpen separator pending).map (·.heredoc) : Progress }.between rest := by
  by_cases hnl : separator = .newline
  · rw [stillOpen, if_pos hnl, if_pos hnl, hnl]
    change scan s (lf :: (bodiesText pending ++ rest)) = _
    rw [scan_newline h, hpend, skipHeredocBodies_bodies, finish_words hwor]
    rfl
  · rw [stillOpen, if_neg hnl, if_neg hnl, nil_append, ← hpend,
      scan_separator h hnl (hrest bar (.inl rfl)) (hrest ampersand (.inr rfl)), finish_words hwor]

theorem finishCommand_commands (h : Ends s p) (hwor : p.words ≠ []) :
    (s.finishCommand none).commands = p.commands ++ [⟨p.words, p.operatorBefore⟩] := by
  rw [Scan.finishCommand, h.finish]
  change (p.finish none).commands = _
  rw [finish_words hwor]

/-- The commands behind a command, by induction on them. -/
theorem scan_renderRest (h : Ends s p) (htgt : p.heredocTarget = none) (hwor : p.words ≠ [])
    {pending : List HeredocText} (hpend : p.heredocs = pending.map (·.heredoc)) (more : List NextCommand) :
    ((scan s (renderRest pending more)).finishCommand none).commands = p.commands ++ ⟨p.words, p.operatorBefore⟩ ::
        more.map fun next => ⟨next.command.words, some next.separator.operator⟩ := by
  induction more generalizing s p pending with
  | nil =>
    rw [renderRest, map_nil]
    by_cases hnil : pending = []
    · rw [if_pos hnil, scan]
      exact finishCommand_commands h hwor
    · rw [if_neg hnil, scan_newline h, hpend, ← append_nil (bodiesText pending), skipHeredocBodies_bodies, scan,
        finish_words hwor]
      rfl
  | cons next more ih =>
    obtain ⟨s₁, hbef, hends₁⟩ := exists_scans_blanks h next.before
    rw [renderRest]
    simp only [append_assoc]
    rw [hbef, scan_next hends₁ hwor hpend next.separator fun d hd => head_command _ _ _ hd]
    generalize hq : ({ p with
        commands := p.commands ++ [⟨p.words, p.operatorBefore⟩]
        words := []
        operatorBefore := some next.separator.operator
        heredocs := (stillOpen next.separator pending).map (·.heredoc) } : Progress) = q
    have hqTa : q.heredocTarget = none := by
      rw [← hq]
      exact htgt
    obtain ⟨s₂, hcom, hends₂⟩ := exists_scans_command hqTa next.command
    rw [scans_blanks q next.behind, hcom]
    have hher : q.heredocs ++ next.command.heredocs.map (·.2.heredoc) =
        (stillOpen next.separator pending ++ next.command.heredocs.map (·.2)).map (·.heredoc) := by
      rw [← hq, map_append, map_map]
      rfl
    have hqWo : q.words ++ next.command.words ≠ [] := append_ne_nil_of_right_ne_nil _ (cons_ne_nil _ _)
    have hall := ih hends₂ hqTa hqWo hher
    refine hall.trans ?_
    rw [← hq, map_cons, nil_append, append_assoc, singleton_append]

end

theorem shellWordText_word (word : QuotedWord) : shellWordText word.word = word.text :=
  shellWordText_textParts word.text word.expandable

theorem texts_words (command : CommandText) : command.words.map shellWordText = command.texts := by
  rw [CommandText.words, CommandText.texts, map_cons, shellWordText_word, map_map]
  exact congrArg _ (map_congr_left fun word _ => shellWordText_word word.2.2)

theorem texts_commands (script : ScriptText) :
    script.commands.map (fun command => command.words.map shellWordText) = script.texts := by
  rw [ScriptText.commands, ScriptText.texts, map_cons, texts_words, map_map]
  exact congrArg _ (map_congr_left fun next _ => texts_words next.command)

/-- **Scanning inverts quoting**: a script is read as its commands with their words and the texts of these, what
is in single quotes not expandable; its here-documents add and take away nothing. -/
theorem parseShellCommands_render (script : ScriptText) : parseShellCommands script.render = script.commands ∧
      (parseShellCommands script.render).map (fun command => command.words.map shellWordText) = script.texts ∧
      parseShellCommands script.render = parseShellCommands script.withoutHeredocs.render := by
  have hall (script : ScriptText) : parseShellCommands script.render = script.commands := by
    have hpre : ({} : Progress).heredocTarget = none := rfl
    obtain ⟨s, hfst, hends⟩ := exists_scans_command hpre script.first
    have hscan : scan {} script.render = scan s (renderRest (script.first.heredocs.map (·.2)) script.more) := hfst _
    rw [parseShellCommands, hscan]
    refine scan_renderRest hends rfl (cons_ne_nil _ _) ?_ script.more
    rw [map_map]
    rfl
  refine ⟨hall script, ?_, ?_⟩
  · rw [hall script, texts_commands]
  rw [hall script, hall script.withoutHeredocs]
  simp only [ScriptText.commands, ScriptText.withoutHeredocs, map_map]
  rfl

def asciiUnits (text : String) : Text := text.toList.map fun c => c.toNat.toUInt16

def sampleWord (text : String) : QuotedWord where
  text := asciiUnits text
  quote := .single
  literal := fun h => Quote.noConfusion h

/-- A here-document of one line, which another command follows. -/
def catScript : ScriptText where
  first := ⟨sampleWord "cat", [], [([.space], {
    stripTabs := true
    gap := []
    delimiter := .name [69, 79, 70] (by decide) (by decide)
    body := [asciiUnits "\trm -rf /"]
    line := by decide
    closes := by decide
    lines := by decide +kernel
    inside := by decide +kernel })]⟩
  more := [{ separator := .newline, command := ⟨sampleWord "ls", [], []⟩ }]

theorem parseShellCommands_render_cat : (parseShellCommands catScript.render).map (fun command =>
    command.words.map shellWordText) = [[asciiUnits "cat"], [asciiUnits "ls"]] :=
  (parseShellCommands_render catScript).2.1

/-- A line of a body that is the delimiter with a carriage return closes the body: the lines behind it are read
as commands. -/
theorem heredoc_adds_commands :
    ¬ ∀ (command : CommandText) (delimiter : QuotedWord) (body : List Text), lf ∉ delimiter.text →
      (∀ line ∈ body, lf ∉ line ∧ line ≠ delimiter.text) →
      parseShellCommands (withHeredoc command delimiter body) = parseShellCommands command.render := by
  intro h
  have hsam := h ⟨sampleWord "cat", [], []⟩ (sampleWord "EOF") [asciiUnits "EOF\r", asciiUnits "rm -rf /"]
    (by decide +kernel) (by decide +kernel)
  exact absurd (congrArg List.length hsam) (by decide +kernel)

end EasyPi.Permissions
