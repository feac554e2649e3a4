/-
# Crash recovery of a JSONL session

A session file is its header and one line for each accepted mutation, and the
state is what these mutations come to (`Journaled`). Every call keeps this, and
loading the file of a storage gives back its state and its journal. A crash
leaves a beginning of the last line behind: a strict beginning of its JSON text
does not parse and is dropped, the whole text is kept and its line break is
added, so the file always ends in one and the next append starts a new line.

The properties of the envelope have to be absent from the payloads, as in
`Codec.lean`: a line whose entry has its own `kind` is written but cannot be
read (`reserved_kind_unloadable`).
-/
import EasyPi.Jsonl.Storage

namespace EasyPi.Jsonl

open List Session
open Session.Durable (assertDurableEntry assertDurableRecord assertDurableEntry_congr
  assertDurableRecord_congr)

/-- The largest time value a `Date` can hold, in milliseconds. -/
def maxTime : ℕ := 8640000000000000

structure JsonlV4Header.Valid (header : JsonlV4Header) : Prop where
  createdAt : header.createdAt ≤ maxTime
  parent : header.parentSessionId = none ∨ header.legacyParentSessionPath = none
  metadata : ∀ metadata, header.metadata = some metadata → (JsonValue.obj metadata).WellFormed

/-- The arguments of an operation: a payload is a JSON object that passes its checks, and the
clock is a time value. -/
def JsonlOp.Durable : JsonlOp → Prop
  | .appendEntry newEntry _ now => (JsonValue.obj newEntry).WellFormed ∧
      assertDurableEntry (some (.obj newEntry)) = .ok () ∧ now ≤ maxTime
  | .appendRecord newRecord now => (JsonValue.obj newRecord).WellFormed ∧
      assertDurableRecord (some (.obj newRecord)) = .ok () ∧ now ≤ maxTime
  | .createLane .. | .moveLane .. | .setName _ | .setLabel .. => True

/-- The payload has no property of its envelope. -/
def JsonlOp.Unreserved : JsonlOp → Prop
  | .appendEntry newEntry _ _ => "kind" ∉ newEntry.map Prod.fst ∧ "lane" ∉ newEntry.map Prod.fst
  | .appendRecord newRecord _ => "kind" ∉ newRecord.map Prod.fst
  | .createLane .. | .moveLane .. | .setName _ | .setLabel .. => True

def Call.Admissible : Call → Prop
  | .write op _ => op.Durable ∧ op.Unreserved
  | .release => True

section Header

variable {header : JsonlV4Header}

theorem wellFormed_members (h : header.Valid) : (JsonValue.obj header.members).WellFormed := by
  refine wellFormed_defined (by simp) ?_
  intro p hp value hvl
  simp only [mem_cons, not_mem_nil, or_false] at hp
  rcases hp with rfl | rfl | rfl | rfl | rfl | rfl | rfl | rfl
  case inr.inr.inr.inr.inr.inr.inr =>
    obtain ⟨metadata, hmeta, rfl⟩ := Option.map_eq_some_iff.mp hvl
    exact h.metadata metadata hmeta
  case inr.inr.inr.inr.inr.inl | inr.inr.inr.inr.inr.inr.inl =>
    obtain ⟨parent, -, rfl⟩ := Option.map_eq_some_iff.mp hvl
    simp [JsonValue.WellFormed]
  all_goals
    cases hvl
    simp [JsonValue.WellFormed, numeral]

theorem parseHeader_members (J : JsonText) (h : header.Valid) :
    parseHeader J (J.stringify (.obj header.members)) = .ok header := by
  have hprs : parseObject J (J.stringify (.obj header.members)) = .ok header.members := by
    rw [parseObject, J.parse_stringify _ (wellFormed_members h)]
  have htime : requireTimestamp (some (numeral header.createdAt)) = .ok header.createdAt :=
    requireTimestamp_numeral (lt_of_le_of_lt h.createdAt (by decide))
  obtain ⟨id, createdAt, cwd, parent, legacy, metadata⟩ := header
  have hpar := h.parent
  simp only at hpar htime
  rw [parseHeader, decodeHeader, hprs]
  rcases parent with _ | parent <;> rcases legacy with _ | legacy <;> rcases metadata with _ | metadata <;>
    simp_all [JsonlV4Header.members, defined, List.lookup_cons, optionalString, requireString, bind,
      Except.bind, pure, Except.pure]

theorem stringify_members_ne_empty (J : JsonText) (h : header.Valid) : J.stringify (.obj header.members) ≠ "" :=
  J.stringify_obj_ne_empty (wellFormed_members h)

end Header

/-! ### The mutation of an operation -/

theorem wellFormed_assign {base members : Fields} (hbase : (JsonValue.obj base).WellFormed)
    (hmemb : ∀ p ∈ members, p.2.WellFormed) : (JsonValue.obj (assign base members)).WellFormed := by
  rw [JsonValue.wellFormed_obj] at hbase ⊢
  refine ⟨nodup_keys_assign members hbase.1, fun p hp => ?_⟩
  rcases mem_of_mem_assign hp with hp | hp
  · exact hbase.2 p hp
  · exact hmemb p hp

theorem wellFormed_nullable (id : Option String) : (nullable id).WellFormed := by
  cases id <;> simp [nullable, JsonValue.WellFormed]

variable {op : JsonlOp}

theorem durable_opMutation {s : SessionState} (hop : op.Durable)
    (hseq : s.nextSequence < 2 ^ 53) : (opMutation s op).Durable := by
  have hpos : 0 < s.nextSequence := Nat.succ_pos _
  have htime : ∀ {now : ℕ}, now ≤ maxTime → now < 2 ^ 53 := fun h => lt_of_le_of_lt h (by decide)
  cases op with
  | appendEntry newEntry lane now =>
    obtain ⟨hwf, hval, hnow⟩ := hop
    obtain ⟨hpare, hent, htim⟩ := lookup_entryPlace s newEntry lane now
    refine ⟨wellFormed_assign hwf ?_, ?_, ⟨_, hpare⟩, ⟨_, hpos, hseq, hent⟩, _, htime hnow, htim⟩
    · simp [entryPlace, numeral, JsonValue.WellFormed, wellFormed_nullable]
    · rw [← hval]
      refine assertDurableEntry_congr fun key hkey => lookup_assign_of_notMem ?_
      exact fun hmem => absurd hkey (by
        simp only [entryPlace, map_cons, map_nil, mem_cons, not_mem_nil, or_false] at hmem
        rcases hmem with rfl | rfl | rfl <;> decide)
  | appendRecord newRecord now =>
    obtain ⟨hwf, hval, hnow⟩ := hop
    obtain ⟨hrec, htim⟩ := lookup_recordPlace s newRecord now
    refine ⟨wellFormed_assign hwf ?_, ?_, ⟨_, hpos, hseq, hrec⟩, _, htime hnow, htim⟩
    · simp [recordPlace, numeral, JsonValue.WellFormed]
    · rw [← hval]
      refine assertDurableRecord_congr fun key hkey => lookup_assign_of_notMem ?_
      exact fun hmem => absurd hkey (by
        simp only [recordPlace, map_cons, map_nil, mem_cons, not_mem_nil, or_false] at hmem
        rcases hmem with rfl | rfl <;> decide)
  | createLane lane at_ | moveLane lane to_ | setName name | setLabel id label => exact ⟨hpos, hseq⟩

theorem unreserved_opMutation {s : SessionState} (hop : op.Unreserved) : (opMutation s op).Unreserved := by
  cases op with
  | appendEntry newEntry lane now =>
    have hpla : ∀ key ∈ ["kind", "lane"], key ∉ (entryPlace s lane now).map Prod.fst := by
      simp [entryPlace]
    refine ⟨fun hmem => ?_, fun hmem => ?_⟩
    · exact (mem_keys_assign.mp hmem).elim hop.1 (hpla "kind" (by decide))
    · exact (mem_keys_assign.mp hmem).elim hop.2 (hpla "lane" (by decide))
  | appendRecord newRecord now =>
    have hpla : "kind" ∉ (recordPlace s now).map Prod.fst := by simp [recordPlace]
    exact fun hmem => (mem_keys_assign.mp hmem).elim hop hpla
  | createLane lane at_ | moveLane lane to_ | setName name | setLabel id label => trivial

/-! ### The invariant -/

/-- The state after one more mutation, when it is accepted. -/
def applied (s : SessionState) (mutation : Mutation) : Option SessionState :=
  if s.checkMutation (viewMutation mutation) = none then some (s.commit (viewMutation mutation))
  else none

def replay (s : SessionState) (journal : List Mutation) : Option SessionState := journal.foldlM applied s

def fileLines (J : JsonText) (header : JsonlV4Header) (journal : List Mutation) : List String :=
  J.stringify (.obj header.members) :: journal.map (mutationText J)

/-- The file holds the header and the journal, and the state is what the journal comes to. The
lines can be read back as long as the sequence numbers are safe integers. -/
structure Journaled (J : JsonText) (header : JsonlV4Header) (s : JsonlSessionStorage) : Prop where
  content : s.content = endLines (fileLines J header s.journal)
  replays : replay {} s.journal = some s.state
  repInv : s.state.RepInv
  durable : s.state.sequence < 2 ^ 53 → ∀ m ∈ s.journal, m.Durable ∧ m.Unreserved

section Run

variable {J : JsonText} {header : JsonlV4Header} {s : JsonlSessionStorage}

theorem journaled_create (J : JsonText) (path : String) (header : JsonlV4Header) (modifiedAt : ℚ) :
    Journaled J header (create J path header modifiedAt) where
  content := (endLines_singleton _).symm
  replays := rfl
  repInv := SessionState.repInv_empty
  durable := by simp [create]

theorem sequence_accept (h : s.state.RepInv) (hop : Memory.checkOp s.state op.view = none) :
    (accept J s (opMutation s.state op)).state.sequence = s.state.sequence + 1 := by
  have hm := Memory.checkMutation_of_checkOp h hop
  rw [← viewMutation_opMutation] at hm
  rw [accept, SessionState.commit_sequence]
  exact (SessionState.checkMutation_eq_none hm).1

theorem Journaled.accept (h : Journaled J header s) (hdurable : op.Durable)
    (hunreserved : op.Unreserved) (hop : Memory.checkOp s.state op.view = none) :
    Journaled J header (accept J s (opMutation s.state op)) := by
  have hm := Memory.checkMutation_of_checkOp h.repInv hop
  rw [← viewMutation_opMutation] at hm
  refine ⟨?_, ?_, h.repInv.commit hm, fun hsafe => ?_⟩
  · rw [Jsonl.accept, h.content]
    simp only [fileLines, map_append, map_cons, map_nil]
    rw [← cons_append, endLines_append, endLines_singleton, encodeMutation]
  · have happl : applied s.state (opMutation s.state op) =
        some (s.state.commit (viewMutation (opMutation s.state op))) := if_pos hm
    simp only [Jsonl.accept, replay, foldlM_append]
    rw [← replay, h.replays]
    simp [happl]
  · rw [sequence_accept h.repInv hop] at hsafe
    intro m hmem
    rcases mem_append.mp hmem with hmem | hmem
    · exact h.durable (by omega) m hmem
    · rw [mem_singleton.mp hmem]
      exact ⟨durable_opMutation hdurable hsafe, unreserved_opMutation hunreserved⟩

theorem Journaled.step (h : Journaled J header s) {call : Call} (hcall : call.Admissible) :
    Journaled J header (step J s call) := by
  cases call with
  | release => exact ⟨h.content, h.replays, h.repInv, h.durable⟩
  | write op written =>
    rw [Jsonl.step, runOp_eq J h.repInv, outcome]
    cases refusal s with
    | some error => exact h
    | none =>
      cases hop : Memory.checkOp s.state op.view with
      | some error => exact h
      | none =>
        cases fileResult written ("Failed to append session " ++ s.metadata.path) with
        | error failure => exact ⟨h.content, h.replays, h.repInv, h.durable⟩
        | ok _ => exact h.accept hcall.1 hcall.2 hop

theorem Journaled.runCalls (h : Journaled J header s) {calls : List Call}
    (hcalls : ∀ call ∈ calls, call.Admissible) : Journaled J header (runCalls J calls s) := by
  induction calls generalizing s with
  | nil => exact h
  | cons call calls ih =>
    obtain ⟨hcall, hcalls⟩ := forall_mem_cons.mp hcalls
    exact ih (h.step hcall) hcalls

end Run

/-! ### Loading -/

/-- The storage that loading a file with the content of `s` opens. -/
def reopen (header : JsonlV4Header) (path : String) (modifiedAt : ℚ) (s : JsonlSessionStorage) :
    JsonlSessionStorage where
  metadata := metadataFromHeader header path modifiedAt
  state := s.state
  journal := s.journal
  content := s.content
  writer := true

section Load

variable {J : JsonText} {header : JsonlV4Header}

theorem loadLines_journal {journal : List Mutation} {state : SessionState} (rest : List String)
    (hdurable : ∀ m ∈ journal, m.Durable ∧ m.Unreserved) (before : List String)
    (storage : JsonlSessionStorage) (hrpl : replay storage.state journal = some state) :
    loadLines J before (journal.map (mutationText J) ++ rest) storage =
      loadLines J (before ++ journal.map (mutationText J)) rest
        { storage with state := state, journal := storage.journal ++ journal } := by
  induction journal generalizing before storage with
  | nil =>
    obtain rfl := Option.some.inj hrpl
    simp
  | cons m journal ih =>
    obtain ⟨hm, hdurable⟩ := forall_mem_cons.mp hdurable
    rw [replay, foldlM_cons] at hrpl
    obtain ⟨next, hnext, hrpl⟩ := Option.bind_eq_some_iff.mp hrpl
    unfold applied at hnext
    split_ifs at hnext with hchk
    obtain rfl := Option.some.inj hnext
    rw [map_cons, cons_append, loadLines, parseMutation_mutationText J hm.1 hm.2]
    simp only [run_applyMutation storage hchk]
    have hrest := ih hdurable (before ++ [mutationText J m]) { storage with
      state := storage.state.commit (viewMutation m), journal := storage.journal ++ [m] } hrpl
    rw [hrest]
    simp

theorem fileLines_ne_nil (J : JsonText) (header : JsonlV4Header) (journal : List Mutation) :
    fileLines J header journal ≠ [] := cons_ne_nil _ _

theorem newline_notMem_fileLines (J : JsonText) (header : JsonlV4Header) (journal : List Mutation) :
    ∀ line ∈ fileLines J header journal, '\n' ∉ line.toList := by
  intro line hline
  rcases mem_cons.mp hline with rfl | hline
  · exact J.newline_notMem _
  · obtain ⟨m, -, rfl⟩ := mem_map.mp hline
    exact J.newline_notMem _

theorem physicalLines_append (journal : List Mutation) {rest : String} (hrest : '\n' ∉ rest.toList) :
    physicalLines (endLines (fileLines J header journal) ++ rest) =
      fileLines J header journal ++ if rest = "" then [] else [rest] := by
  rw [physicalLines, splitLines_endLines_append (newline_notMem_fileLines J header journal) hrest]
  by_cases hemp : rest = ""
  · simp [hemp]
  · simp [hemp]

variable {s : JsonlSessionStorage}

theorem load_append (hheader : header.Valid) (h : Journaled J header s)
    (hsafe : s.state.sequence < 2 ^ 53) (path : String) (modifiedAt : ℚ) {rest : String} (hrest : '\n' ∉ rest.toList) :
    load J path modifiedAt (s.content ++ rest) =
      loadLines J (fileLines J header s.journal) (if rest = "" then [] else [rest])
        { reopen header path modifiedAt s with content := s.content ++ rest } := by
  rw [load, loadOwned, h.content, physicalLines_append s.journal hrest, fileLines, cons_append]
  simp only [if_neg (stringify_members_ne_empty J hheader), parseHeader_members J hheader]
  rw [loadLines_journal _ (h.durable hsafe) _ _ h.replays]
  rfl

theorem newline_notMem_beginning {a b : String} (h : a.toList <+: b.toList) (hb : '\n' ∉ b.toList) :
    '\n' ∉ a.toList := fun hmem => hb (h.subset hmem)

theorem load_journaled (hheader : header.Valid)
    (h : Journaled J header s) (hsafe : s.state.sequence < 2 ^ 53) (path : String) (modifiedAt : ℚ) :
    load J path modifiedAt s.content = .ok (reopen header path modifiedAt s) := by
  have hload := load_append hheader h hsafe path modifiedAt
    (by simp : '\n' ∉ ("" : String).toList)
  have hend : endsWithNewline s.content = true := by
    rw [h.content]
    exact endsWithNewline_endLines (fileLines_ne_nil J header s.journal)
  rw [String.append_empty] at hload
  rw [hload, if_pos rfl, loadLines, hend]
  rfl

theorem load_torn (hheader : header.Valid) (h : Journaled J header s)
    (hsafe : s.state.sequence < 2 ^ 53) (path : String) (modifiedAt : ℚ) {mutation : Mutation}
    (hdurable : mutation.Durable) (hunreserved : mutation.Unreserved) {tail : String}
    (hbeg : tail.toList <+: (mutationText J mutation).toList) (hne : tail ≠ mutationText J mutation) :
    load J path modifiedAt (s.content ++ tail) = .ok (reopen header path modifiedAt s) := by
  have hnl : '\n' ∉ tail.toList := newline_notMem_beginning hbeg (J.newline_notMem _)
  by_cases hemp : tail = ""
  · rw [hemp, String.append_empty]
    exact load_journaled hheader h hsafe path modifiedAt
  have hprs : parseMutation J tail = .error ⟨.syntaxError, "is not valid JSON"⟩ := by
    have hnone := J.parse_truncated _ tail (wellFormed_mutationMembers hdurable hunreserved)
      hbeg hne
    rw [parseMutation, parseObject, hnone]
    rfl
  have htorn : endsWithNewline (s.content ++ tail) = false := endsWithNewline_append hemp hnl
  rw [load_append hheader h hsafe path modifiedAt hnl, if_neg hemp, loadLines, hprs]
  simp only [htorn, Bool.not_false, isEmpty_nil, Bool.and_self, decide_true, if_true, reopen]
  rw [intercalate_eq_endLines (fileLines_ne_nil J header s.journal), ← h.content]

theorem load_unended (hheader : header.Valid) (h : Journaled J header s)
    (hdurable : op.Durable) (hunreserved : op.Unreserved)
    (hop : Memory.checkOp s.state op.view = none) (hsafe : s.state.sequence + 1 < 2 ^ 53)
    (path : String) (modifiedAt : ℚ) : load J path modifiedAt (s.content ++ mutationText J (opMutation s.state op)) =
      .ok (reopen header path modifiedAt (accept J s (opMutation s.state op))) := by
  have hm := Memory.checkMutation_of_checkOp h.repInv hop
  rw [← viewMutation_opMutation] at hm
  have hwf := durable_opMutation hdurable hsafe
  have hun := unreserved_opMutation (s := s.state) hunreserved
  have hnl : '\n' ∉ (mutationText J (opMutation s.state op)).toList := J.newline_notMem _
  have hemp : mutationText J (opMutation s.state op) ≠ "" := J.stringify_obj_ne_empty (wellFormed_mutationMembers hwf hun)
  have hune : endsWithNewline (s.content ++ mutationText J (opMutation s.state op)) = false :=
    endsWithNewline_append hemp hnl
  rw [load_append hheader h (by omega) path modifiedAt hnl, if_neg hemp, loadLines, parseMutation_mutationText J hwf hun]
  have happ := run_applyMutation { reopen header path modifiedAt s with
    content := s.content ++ mutationText J (opMutation s.state op) } hm
  simp only [reopen] at happ ⊢
  rw [happ]
  simp only [loadLines, hune, accept, encodeMutation, String.append_assoc, Bool.not_false, Bool.and_self, if_true]

end Load

/-! ### Crashes -/

/-- What operations come to on the in-memory storage. -/
def extend (s : SessionState) (ops : List StorageOp) : SessionState :=
  ops.foldl (fun s op => ((Memory.runOp op).run s).2) s

theorem runCalls_state {J : JsonText} (h : s.state.RepInv) (hopen : refusal s = none) (ops : List JsonlOp) :
    (runCalls J (ops.map (.write · (.ok ()))) s).state = extend s.state (ops.map JsonlOp.view) := by
  induction ops generalizing s with
  | nil => rfl
  | cons op ops ih =>
    have hmemo := Memory.runOp_eq h op.view
    have hrun := runOp_eq J h (.ok ()) op
    rw [outcome, hopen] at hrun
    have hrep := Memory.repInv_runOp h op.view
    rw [map_cons, map_cons, runCalls, foldl_cons, ← runCalls, extend, foldl_cons, ← extend, step, hrun]
    rw [hmemo] at hrep ⊢
    cases hop : Memory.checkOp s.state op.view with
    | some error => exact ih h hopen
    | none =>
      rw [hop, ← viewMutation_opMutation] at hrep
      simp only [← viewMutation_opMutation]
      exact ih hrep hopen

theorem runOp_eq_ok {J : JsonText} {s after : JsonlSessionStorage} (h : s.state.RepInv)
    {written : Except FileError Unit} {result : JsonlResult} (hrun : (runOp J written op).run s = (.ok result, after)) :
    Memory.checkOp s.state op.view = none ∧ after = accept J s (opMutation s.state op) := by
  rw [runOp_eq J h, outcome] at hrun
  cases href : refusal s with
  | some error =>
    rw [href] at hrun
    cases hrun
  | none =>
    cases hop : Memory.checkOp s.state op.view with
    | some error =>
      rw [href, hop] at hrun
      cases hrun
    | none =>
      cases hfile : fileResult written ("Failed to append session " ++ s.metadata.path) with
      | error failure =>
        rw [href, hop, hfile] at hrun
        cases hrun
      | ok _ =>
        rw [href, hop, hfile] at hrun
        cases hrun
        exact ⟨rfl, rfl⟩

theorem beginning_cases {tail line : String} (h : tail.toList <+: (line ++ "\n").toList) :
    (tail.toList <+: line.toList ∧ tail.length < line.length) ∨
      (¬ tail.length < line.length ∧ (tail = line ∨ tail = line ++ "\n")) := by
  have hlen : ∀ s : String, s.length = s.toList.length := fun s => (String.length_toList).symm
  have hline : (line ++ "\n").toList = line.toList ++ ['\n'] := by simp
  rw [hline] at h
  rcases prefix_concat_iff.mp h with h | h
  · have heq : tail = line ++ "\n" := String.toList_inj.mp (h.trans hline.symm)
    refine .inr ⟨?_, .inr heq⟩
    rw [heq, String.length_append]
    omega
  · by_cases hlt : tail.length < line.length
    · exact .inl ⟨h, hlt⟩
    · rw [hlen, hlen] at hlt
      exact .inr ⟨by rwa [hlen, hlen], .inl (String.toList_inj.mp (h.eq_of_length_le (by omega)))⟩

/-- **A crash keeps every operation but the one it interrupts.** After any run of calls and one
more accepted operation, whatever beginning of its line the file ends in, loading succeeds with the
state before the operation when the JSON text is cut short and the state after it otherwise. The
repaired file ends in a line break; it takes further calls as the in-memory storage does, and
loading it again gives the storage they come to. -/
theorem crash_consistent (J : JsonText) (header : JsonlV4Header) (hheader : header.Valid)
    (path : String) (createdAt : ℚ) (calls : List Call) (hcalls : ∀ call ∈ calls, call.Admissible)
    (op : JsonlOp) (hdurable : op.Durable) (hunreserved : op.Unreserved)
    (written : Except FileError Unit) (result : JsonlResult) (after : JsonlSessionStorage)
    (haccepted : (runOp J written op).run (runCalls J calls (create J path header createdAt)) = (.ok result, after))
    (hsafe : after.state.sequence < 2 ^ 53) :
    let before := runCalls J calls (create J path header createdAt)
    ∃ mutation : Mutation, after.journal = before.journal ++ [mutation] ∧
      after.content = before.content ++ encodeMutation J mutation ∧
      ∀ tail : String, tail.toList <+: (encodeMutation J mutation).toList → ∀ modifiedAt : ℚ,
        let kept := if tail.length < (mutationText J mutation).length then before else after
        let loaded := reopen header path modifiedAt kept
        load J path modifiedAt (before.content ++ tail) = .ok loaded ∧ endsWithNewline loaded.content = true ∧
        (∀ further : List Call, (∀ call ∈ further, call.Admissible) →
          (runCalls J further loaded).state.sequence < 2 ^ 53 → ∀ reloadedAt : ℚ,
          load J path reloadedAt (runCalls J further loaded).content =
            .ok (reopen header path reloadedAt (runCalls J further loaded))) ∧
        ∀ ops : List JsonlOp, (runCalls J (ops.map (.write · (.ok ()))) loaded).state =
          extend kept.state (ops.map JsonlOp.view) := by
  intro before
  have hbef : Journaled J header before := (journaled_create J path header createdAt).runCalls hcalls
  obtain ⟨hop, rfl⟩ := runOp_eq_ok hbef.repInv haccepted
  have haft := hbef.accept hdurable hunreserved hop
  have hsequ := sequence_accept (J := J) hbef.repInv hop
  have hnext : before.state.nextSequence < 2 ^ 53 := by
    rw [SessionState.nextSequence, ← hsequ]
    exact hsafe
  refine ⟨opMutation before.state op, rfl, rfl, fun tail htail modifiedAt => ?_⟩
  -- what is loaded, and that the file of what is kept is whole
  have hload : ∃ kept, (if tail.length < (mutationText J (opMutation before.state op)).length
      then before else accept J before (opMutation before.state op)) = kept ∧
      load J path modifiedAt (before.content ++ tail) = .ok (reopen header path modifiedAt kept) ∧
      Journaled J header kept := by
    rcases beginning_cases htail with ⟨hbeg, hlt⟩ | ⟨hlt, rfl | rfl⟩
    · refine ⟨before, if_pos hlt, ?_, hbef⟩
      refine load_torn hheader hbef (by omega) path modifiedAt
        (durable_opMutation hdurable hnext) (unreserved_opMutation hunreserved)
        hbeg ?_
      rintro rfl
      exact absurd hlt (lt_irrefl _)
    · refine ⟨_, if_neg hlt, ?_, haft⟩
      exact load_unended hheader hbef hdurable hunreserved hop hnext path modifiedAt
    · refine ⟨_, if_neg hlt, ?_, haft⟩
      exact load_journaled hheader haft hsafe path modifiedAt
  obtain ⟨kept, hkept, hload, hjou⟩ := hload
  simp only [hkept]
  have hreo : Journaled J header (reopen header path modifiedAt kept) :=
    ⟨hjou.content, hjou.replays, hjou.repInv, hjou.durable⟩
  refine ⟨hload, ?_, ?_, runCalls_state hreo.repInv rfl⟩
  · rw [hreo.content]
    exact endsWithNewline_endLines (fileLines_ne_nil J header kept.journal)
  · intro further hfurt hfur reloadedAt
    exact load_journaled hheader (hreo.runCalls hfurt) hfur path reloadedAt

/-- The header and the note of the examples below. -/
def noteHeader : JsonlV4Header := { id := "s1", createdAt := 1700000000000, cwd := "/work" }

def note (extra : Fields) : JsonlOp :=
  .appendEntry ([("type", .str "custom"), ("id", .str "e1"), ("customType", .str "note")] ++ extra)
    "main" 1700000000001

theorem valid_noteHeader : noteHeader.Valid := ⟨by decide, .inl rfl, by simp [noteHeader]⟩

def firstNote : JsonlOp :=
  .appendEntry [("type", .str "custom"), ("id", .str "e0"), ("customType", .str "note")] "main" 1700000000000

/-- A second note whose line lost its line break is kept. -/
theorem crash_consistent_note :
    let before := runCalls .printed [.write firstNote (.ok ())] (create .printed "/s.jsonl" noteHeader 0)
    let mutation := opMutation before.state (note [])
    (note []).Durable ∧ load .printed "/s.jsonl" 1 (before.content ++ mutationText .printed mutation) =
      .ok (reopen noteHeader "/s.jsonl" 1 (accept .printed before mutation)) := by
  intro before mutation
  have hwel (op : JsonlOp) (h : op = note [] ∨ op = firstNote) : op.Durable := by
    obtain rfl | rfl := h
    · exact ⟨by simp [JsonValue.WellFormed, JsonValue.WellFormedFields], by decide, by decide⟩
    · exact ⟨by simp [JsonValue.WellFormed, JsonValue.WellFormedFields], by decide, by decide⟩
  have hcalls : ∀ call ∈ [Call.write firstNote (.ok ())], call.Admissible := by
    intro call hcall
    obtain rfl := mem_singleton.mp hcall
    exact ⟨hwel _ (.inr rfl), by decide, by decide⟩
  have hfirst : before = accept .printed (create .printed "/s.jsonl" noteHeader 0) (opMutation {} firstNote) := by
    change ((runOp .printed (.ok ()) firstNote).run _).2 = _
    rw [runOp_eq .printed SessionState.repInv_empty]
    rfl
  have hrep : before.state.RepInv := ((journaled_create .printed "/s.jsonl" noteHeader 0).runCalls hcalls).repInv
  have haccepted : (runOp .printed (.ok ()) (note [])).run before =
      (.ok (opResult before.state (note [])), accept .printed before mutation) := by
    rw [runOp_eq .printed hrep, outcome, hfirst]
    rfl
  obtain ⟨m, hjour, -, htail⟩ := crash_consistent .printed noteHeader valid_noteHeader "/s.jsonl" 0
    _ hcalls (note []) (hwel _ (.inl rfl)) ⟨by decide, by decide⟩ (.ok ()) _ _ haccepted (by rw [hfirst]; decide)
  obtain rfl : mutation = m := (cons.inj (append_cancel_left hjour)).1
  obtain ⟨hload, -⟩ := htail (mutationText .printed mutation) (by simp [encodeMutation]) 1
  rw [if_neg (lt_irrefl _)] at hload
  exact ⟨hwel _ (.inl rfl), hload⟩

/-- A note with a property `kind` is accepted, and its file cannot be loaded. -/
theorem reserved_kind_unloadable :
    let op := note [("kind", .str "memo")]
    op.Durable ∧ ∃ result after,
      (runOp .printed (.ok ()) op).run (create .printed "/s.jsonl" noteHeader 0) = (.ok result, after) ∧
      load .printed "/s.jsonl" 1 after.content = .error (invalidFile "/s.jsonl" 2 "has unknown mutation kind") := by
  intro op
  have hdurable : op.Durable := ⟨by simp [JsonValue.WellFormed, JsonValue.WellFormedFields], by decide, by decide⟩
  refine ⟨hdurable, opResult {} op, accept .printed (create .printed "/s.jsonl" noteHeader 0)
    (opMutation {} op), ?_, ?_⟩
  · rw [runOp_eq .printed SessionState.repInv_empty]
    rfl
  have hcon : (accept .printed (create .printed "/s.jsonl" noteHeader 0) (opMutation {} op)).content =
      endLines (fileLines .printed noteHeader [opMutation {} op]) ++ "" := by
    rw [String.append_empty, fileLines, endLines_cons, map_cons, map_nil, endLines_singleton]
    rfl
  have hmemb : mutationMembers (opMutation {} op) =
      [("kind", .str "memo"), ("lane", .str "main"), ("type", .str "custom"), ("id", .str "e1"),
        ("customType", .str "note"), ("parentId", .null), ("seq", numeral 1),
        ("timestamp", numeral 1700000000001)] := by decide
  have hprs : parseMutation .printed (mutationText .printed (opMutation {} op)) =
      .error ⟨.schemaError, "has unknown mutation kind"⟩ := by
    rw [parseMutation, mutationText, parseObject, JsonText.parse_stringify, hmemb]
    · decide
    · rw [hmemb]
      simp [JsonValue.WellFormed, JsonValue.WellFormedFields, numeral]
  rw [load, loadOwned, hcon, physicalLines_append _ (by simp), fileLines, cons_append]
  simp only [if_neg (stringify_members_ne_empty .printed valid_noteHeader),
    parseHeader_members .printed valid_noteHeader, map_cons, map_nil, if_true,
    append_nil, loadLines, hprs, reduceCtorEq, decide_false, Bool.and_false,
    Bool.false_eq_true, if_false, length_singleton, metadataFromHeader]

end EasyPi.Jsonl
