/-
# An execution has one outcome

What holds of an execution after any inputs in any order. Until `finish` is called for the first
time, the pending calls are the calls of `handleCall` that have not returned, every record has
the status of the completion of its call, and the replies are made in the order of completions.
After it, the log only gets completions that come too late.
-/
import EasyPi.Codemode.Execution
import EasyPi.Lib.Except
import Mathlib.Data.List.Induction

namespace EasyPi.Codemode

open List

variable {Id Name Item : Type*}

/-! ### The log -/

namespace Entry

def outcome? : Entry Id Name → Option Outcome
  | .terminal outcome => some outcome
  | _ => none

def started? : Entry Id Name → Option (StartedCall Id Name)
  | .started call => some call
  | _ => none

def completion? : Entry Id Name → Option (ℕ × CallStatus × Reply Id)
  | .completed number status reply => some (number, status, reply)
  | _ => none

end Entry

def firstTerminal (log : List (Entry Id Name)) : Option Outcome := log.findSome? Entry.outcome?

/-- What comes before the first terminal event. -/
def untilTerminal (log : List (Entry Id Name)) : List (Entry Id Name) := log.takeWhile fun e => e.outcome?.isNone

def startedCalls (log : List (Entry Id Name)) : List (StartedCall Id Name) := log.filterMap Entry.started?

/-- The tool calls among the started calls: globals have no records. -/
def toolCalls (log : List (Entry Id Name)) : List (StartedCall Id Name) := (startedCalls log).filter (·.isTool)

/-- The completions: the number of the call, its status, and the reply. -/
def completions (log : List (Entry Id Name)) : List (ℕ × CallStatus × Reply Id) := log.filterMap Entry.completion?

/-- The status of a call by its completion, if there is one. -/
def statusIn (log : List (Entry Id Name)) (number : ℕ) : CallStatus :=
  (((completions log).lookup number).map Prod.fst).getD .cancelled

/-- What the record of a call says of it, apart from its duration. -/
def CodemodeCall.nameStatus (c : CodemodeCall Name) : Name × CallStatus := (c.name, c.status)

/-- The records that tool calls must have, by the completions in a log. -/
def recordsIn (log : List (Entry Id Name)) (calls : List (StartedCall Id Name)) : List (Name × CallStatus) :=
  calls.map fun c => (c.name, statusIn log c.number)

def replies (log : List (Entry Id Name)) : List (Reply Id) := (completions log).map (·.2.2)

section Log
variable {log : List (Entry Id Name)}

theorem firstTerminal_append (log log' : List (Entry Id Name)) :
    firstTerminal (log ++ log') = (firstTerminal log).or (firstTerminal log') :=
  List.findSome?_append

theorem untilTerminal_append_of_none (h : firstTerminal log = none) (log' : List (Entry Id Name)) :
    untilTerminal (log ++ log') = log ++ untilTerminal log' := by
  have hall : ∀ e ∈ log, e.outcome?.isNone = true := fun e he => by
    simp [List.findSome?_eq_none_iff.mp h e he]
  exact takeWhile_append_of_pos hall

theorem untilTerminal_of_none (h : firstTerminal log = none) : untilTerminal log = log := by
  simpa [untilTerminal] using untilTerminal_append_of_none h []

theorem untilTerminal_append_of_isSome (h : (firstTerminal log).isSome) (log' : List (Entry Id Name)) :
    untilTerminal (log ++ log') = untilTerminal log := by
  induction log with
  | nil => simp [firstTerminal] at h
  | cons e log ih =>
    simp only [untilTerminal, cons_append, takeWhile_cons]
    split
    · rename_i he
      rw [firstTerminal, List.findSome?_cons, Option.isNone_iff_eq_none.mp he] at h
      rw [show List.takeWhile _ (log ++ log') = _ from ih h]
      rfl
    · rfl

@[simp] theorem startedCalls_append (log log' : List (Entry Id Name)) :
    startedCalls (log ++ log') = startedCalls log ++ startedCalls log' := filterMap_append ..

@[simp] theorem completions_append (log log' : List (Entry Id Name)) :
    completions (log ++ log') = completions log ++ completions log' := filterMap_append ..

end Log

/-! ### What the inputs add to the log -/

namespace Execution

/-- The end of an execution that is cancelled. -/
def cancelEntries (c : Option Cancel) : List (Entry Id Name) := (c.map fun c => .terminal (.failed c.toError)).toList

/-- A call that is done: its status and its reply are those of the result. -/
def completion (number : ℕ) (id : Id) (result : Except String (Option String)) : Entry Id Name :=
  .completed number (statusOf result) (replyTo id result)

variable [ToString Name] (o : ExecutionOptions Name)

/-- A call is started. It is done at once if its tool does not exist, its arguments do not parse or the tool throws, and a
tool may cancel before that. -/
def callEntries (number : ℕ) (id : Id) (isTool : Bool) (name : Name) (args : Raw) (start : ToolStart) :
    List (Entry Id Name) :=
  .started ⟨number, id, isTool, name⟩ ::
    if !o.has isTool name then
      let kind := if isTool then "tool" else "global"
      [completion number id (.error s!"Unknown {kind} \"{name}\"")]
    else
      match parseArgs o args with
      | .error message => [completion number id (.error message)]
      | .ok _ => cancelEntries start.cancel ++ (start.thrown.map fun message => completion number id (.error message)).toList

variable [DecidableEq Id] [ToString Id] (s : Execution Id Name Item)

/-- What an input adds to the log: what it ends the execution with, and the calls that it starts or completes. -/
def entries : Event Id Name Item → List (Entry Id Name)
  | .message m _ start =>
    if s.finished then []
    else
      match m with
      | .unknown => [.terminal (.failed (HostError.bridge "unknown message from the worker").toError)]
      | .output _ => []
      | .call id target name args =>
        if s.pending.has id then [.terminal (.failed (HostError.bridge s!"duplicate call id {id}").toError)]
        else if maxHostCalls ≤ s.callCount then [.terminal (.failed tooManyCalls)]
        else callEntries o (s.callCount + 1) id (target = .text "tool") name args start
      | .done ok value writes error =>
        match decodeDone o ok value writes error with
        | .ok outcome => [.terminal outcome]
        | .error e => [.terminal (.failed e.toError)]
      | .crash message => [.terminal (.failed { kind := .sandbox, message := message })]
  | .settle number result cancel _ =>
    match s.frames.find? (·.number = number) with
    | some frame => cancelEntries cancel ++ [completion frame.number frame.id result]
    | none => []
  | .launchFailed message _ => [.terminal (.failed { kind := .sandbox, message := .text message })]
  | .failure error _ => [.terminal (.failed error)]
  | .deadline _ =>
    [.terminal (.failed { kind := .timeout, message := .text s!"Execution timed out after {o.timeoutMs} ms" })]
  | .cancel c _ => cancelEntries (some c)
  | .launched | .stopped => []

/-- What inputs in a row add. -/
def entriesOf (s : Execution Id Name Item) : List (Event Id Name Item) → List (Entry Id Name)
  | [] => []
  | e :: es => s.entries o e ++ entriesOf (s.step o e) es

end Execution

/-! ### The invariant -/

/-- The calls of `handleCall` that have not returned are open: they are numbered calls that are not
completed, and know the place of their record. -/
structure OpenFrame (log : List (Entry Id Name)) (f : Frame Id) : Prop where
  started : ∃ c ∈ startedCalls log, c.number = f.number ∧ c.id = f.id
  incomplete : f.number ∉ (completions log).map (·.1)
  record : ∀ i, f.pending.record = some i → ((toolCalls log).map (·.number))[i]? = some f.number
  noRecord : f.pending.record = none → f.number ∉ (toolCalls log).map (·.number)

structure ExecInv (s : Execution Id Name Item) : Prop where
  finished : s.finished = (firstTerminal s.log).isSome
  settled : s.resolutions ++ s.stopping.toList = (firstTerminal s.log).toList
  numbers : (startedCalls s.log).map (·.number) = List.range' 1 s.callCount
  before : startedCalls (untilTerminal s.log) = startedCalls s.log
  bound : s.callCount ≤ maxHostCalls
  nodup : (s.frames.map (·.number)).Nodup
  frames : ∀ f ∈ s.frames, OpenFrame s.log f
  completed : ∀ p ∈ completions s.log, (∃ c ∈ startedCalls s.log, c.number = p.1 ∧ c.id = p.2.2.id) ∧
    p.2.1 = if p.2.2.ok then .ok else .error
  once : ((completions s.log).map (·.1)).Nodup
  pending : s.pending.toList = if s.finished then [] else s.frames.map fun f => (f.id, f.pending)
  records : s.calls.map CodemodeCall.nameStatus = recordsIn (untilTerminal s.log) (toolCalls s.log)
  posted : s.posted ++ s.unsent <+: replies (untilTerminal s.log)
  flushed : s.channel = true → s.unsent = []
  all : s.finished = false → s.posted ++ s.unsent = replies (untilTerminal s.log)

theorem OpenFrame.append {log log' : List (Entry Id Name)} {f : Frame Id} (h : OpenFrame log f)
    (hs : startedCalls log' = []) (hc : f.number ∉ (completions log').map (·.1)) : OpenFrame (log ++ log') f := by
  have htool : toolCalls (log ++ log') = toolCalls log := by
    rw [toolCalls, startedCalls_append, hs, append_nil, toolCalls]
  constructor
  · rw [startedCalls_append, hs, append_nil]
    exact h.started
  · rw [completions_append, map_append, mem_append, not_or]
    exact ⟨h.incomplete, hc⟩
  · rw [htool]
    exact h.record
  · rw [htool]
    exact h.noRecord

namespace ExecInv

variable {s : Execution Id Name Item}

theorem untilTerminal_eq (h : ExecInv s) (hf : s.finished = false) : untilTerminal s.log = s.log :=
  untilTerminal_of_none (by simpa [h.finished] using hf)

theorem firstTerminal_eq (h : ExecInv s) (hf : s.finished = false) : firstTerminal s.log = none := by
  simpa [h.finished] using hf

theorem late (h : ExecInv s) (hf : s.finished = true) (log' : List (Entry Id Name)) :
    firstTerminal (s.log ++ log') = firstTerminal s.log ∧ untilTerminal (s.log ++ log') = untilTerminal s.log := by
  have hsome : (firstTerminal s.log).isSome := h.finished ▸ hf
  refine ⟨?_, untilTerminal_append_of_isSome hsome _⟩
  obtain ⟨outcome, hout⟩ := Option.isSome_iff_exists.mp hsome
  rw [firstTerminal_append, hout, Option.some_or]

/-! ### The terminal event -/

theorem map_closeRecords (calls : List (CodemodeCall Name)) (now : ℚ) (pending : List PendingCall) :
    (Execution.closeRecords calls now pending).map CodemodeCall.nameStatus = calls.map CodemodeCall.nameStatus := by
  unfold Execution.closeRecords
  induction pending generalizing calls with
  | nil => rfl
  | cons p pending ih =>
    rw [foldl_cons, ih]
    unfold Execution.updateRecord
    split
    · exact ext_getElem? fun j => by
        simp only [List.getElem?_map, List.getElem?_modify]
        split <;> cases calls[j]? <;> rfl
    · rfl

/-- **`finish` keeps the invariant.** The first call decides the outcome; any later one only gets
into the log. -/
theorem finish (h : ExecInv s) (now : ℚ) (outcome : Outcome) : ExecInv (s.finish now outcome) := by
  have hopen : ∀ f ∈ s.frames, OpenFrame (s.log ++ [.terminal outcome]) f := fun f hf =>
    (h.frames f hf).append rfl not_mem_nil
  have hstd : startedCalls (s.log ++ [.terminal outcome]) = startedCalls s.log := by
    rw [startedCalls_append]
    exact append_nil _
  have hcmp : completions (s.log ++ [.terminal outcome]) = completions s.log := by
    rw [completions_append]
    exact append_nil _
  have htls : toolCalls (s.log ++ [.terminal outcome]) = toolCalls s.log := by
    rw [toolCalls, hstd, toolCalls]
  unfold Execution.finish
  dsimp only
  rcases Bool.eq_false_or_eq_true s.finished with hf | hf
  · obtain ⟨hterm, hunt⟩ := h.late hf [.terminal outcome]
    rw [if_pos hf]
    constructor
    · simp only [hterm, h.finished]
    · simp only [hterm, h.settled]
    · simp only [hstd, h.numbers]
    · simp only [hunt, hstd, h.before]
    · exact h.bound
    · exact h.nodup
    · exact hopen
    · simp only [hcmp, hstd]
      exact h.completed
    · simp only [hcmp, h.once]
    · exact h.pending
    · simp only [htls, hunt, h.records]
    · simp only [hunt, h.posted]
    · exact h.flushed
    · simp only [hf, Bool.true_eq_false, false_imp_iff]
  · have hunt : untilTerminal (s.log ++ [.terminal outcome]) = s.log := by
      rw [untilTerminal_append_of_none (h.firstTerminal_eq hf)]
      exact append_nil _
    have hterm : firstTerminal (s.log ++ [.terminal outcome]) = some outcome := by
      rw [firstTerminal_append, h.firstTerminal_eq hf]
      rfl
    have hbef : s.resolutions = [] ∧ s.stopping = none := by
      have hstl := h.settled
      rw [h.firstTerminal_eq hf] at hstl
      obtain ⟨hr, hs⟩ := append_eq_nil_iff.mp hstl
      exact ⟨hr, by cases hstop : s.stopping <;> simp_all⟩
    have hpos : s.posted ++ [] <+: replies s.log := by
      have hall := h.all hf
      rw [h.untilTerminal_eq hf] at hall
      rw [append_nil, ← hall]
      exact prefix_append ..
    have hrecs := h.records
    rw [h.untilTerminal_eq hf] at hrecs
    rw [if_neg (Bool.eq_false_iff.mp hf)]
    constructor
    all_goals split
    all_goals simp only [hterm, hunt, hstd, hcmp, htls, Option.isSome_some, h.numbers,
      h.once, h.nodup, h.bound, map_closeRecords, hrecs, hpos, hbef]
    all_goals first | exact hopen | exact h.completed | simp

theorem cancelled (h : ExecInv s) (now : ℚ) (c : Option Cancel) : ExecInv (s.cancelled now c) := by
  cases c with
  | none => exact h
  | some c => exact h.finish now _

/-! ### The calls -/

theorem number_le (h : ExecInv s) {c : StartedCall Id Name} (hc : c ∈ startedCalls s.log) : c.number ≤ s.callCount := by
  have hmem : c.number ∈ List.range' 1 s.callCount := h.numbers ▸ mem_map_of_mem hc
  rw [mem_range'_1] at hmem
  omega

theorem frame_ext (h : ExecInv s) {f g : Frame Id} (hf : f ∈ s.frames) (hg : g ∈ s.frames)
    (heq : f.number = g.number) : f = g := inj_on_of_nodup_map h.nodup hf hg heq

variable {frame : Frame Id} {v : Option JsonValue} {w : StoreWrites}

theorem openFrame_complete (h : ExecInv s) {status : CallStatus} {reply : Reply Id}
    {f : Frame Id} (hf : f ∈ s.frames.filter (·.number ≠ frame.number)) :
    OpenFrame (s.log ++ [.completed frame.number status reply]) f := by
  obtain ⟨hmem, hne⟩ := mem_filter.mp hf
  refine (h.frames f hmem).append rfl fun hin => ?_
  rw [mem_singleton.mp hin] at hne
  simp at hne

variable [DecidableEq Id]

theorem pending_erase (h : ExecInv s) (hf : s.finished = false) (hfrm : frame ∈ s.frames) :
    (s.pending.erase frame.id).toList = (s.frames.filter (·.number ≠ frame.number)).map fun f => (f.id, f.pending) := by
  have hpend : s.pending.toList = s.frames.map fun f => (f.id, f.pending) := by
    rw [h.pending, hf, if_neg Bool.false_ne_true]
  have hids : (s.frames.map (·.id)).Nodup := by
    have hnd := s.pending.nodup
    rwa [hpend, map_map] at hnd
  rw [OrdMap.toList_erase, hpend, filter_map]
  congr 1
  refine filter_congr fun f hmem => ?_
  have : f.id = frame.id ↔ f.number = frame.number :=
    ⟨fun heq => by rw [inj_on_of_nodup_map hids hmem hfrm heq], fun heq => by rw [h.frame_ext hmem hfrm heq]⟩
  simp [this]

theorem has_pending (h : ExecInv s) (hfrm : frame ∈ s.frames) : s.pending.has frame.id = !s.finished := by
  rw [Bool.eq_iff_iff, OrdMap.has_iff_mem_keys, OrdMap.keys, h.pending]
  cases s.finished with
  | true => simp
  | false => simpa using ⟨frame, hfrm, rfl⟩

end ExecInv

theorem statusIn_completed (log : List (Entry Id Name)) {number : ℕ} {status : CallStatus}
    {reply : Reply Id} (hnum : number ∉ (completions log).map (·.1)) (n : ℕ) :
    statusIn (log ++ [.completed number status reply]) n = if n = number then status else statusIn log n := by
  have happ : (completions (log ++ [.completed number status reply])).lookup n =
      if n = number then some (status, reply) else (completions log).lookup n := by
    rw [completions_append]
    exact OrdMap.lookup_append_single _ _ _ _ hnum
  unfold statusIn
  rw [happ]
  split <;> rfl

theorem modify_records {calls : List (CodemodeCall Name)} {log : List (Entry Id Name)}
    {number : ℕ} {record : Option ℕ} (hcls : calls.map CodemodeCall.nameStatus = recordsIn log (toolCalls log))
    (hnd : ((toolCalls log).map (·.number)).Nodup) (hnum : number ∉ (completions log).map (·.1))
    (hrec : ∀ i, record = some i → ((toolCalls log).map (·.number))[i]? = some number)
    (hnone : record = none → number ∉ (toolCalls log).map (·.number)) (status : CallStatus)
    (reply : Reply Id) (durationMs : ℚ) : (Execution.updateRecord calls record fun c =>
        { c with status := status, durationMs := durationMs }).map CodemodeCall.nameStatus =
      recordsIn (log ++ [.completed number status reply]) (toolCalls log) := by
  have hget : ∀ j, calls[j]?.map CodemodeCall.nameStatus =
      (toolCalls log)[j]?.map fun c : StartedCall Id Name => (c.name, statusIn log c.number) := fun j => by
    rw [← List.getElem?_map, ← List.getElem?_map, hcls, recordsIn]
  cases record with
  | none =>
    rw [Execution.updateRecord, hcls]
    refine map_congr_left fun c hc => ?_
    have hne : c.number ≠ number := fun heq => hnone rfl (heq ▸ mem_map_of_mem hc)
    rw [statusIn_completed log hnum, if_neg hne]
  | some i =>
    have hi := hrec i rfl
    refine ext_getElem? fun j => ?_
    rw [Execution.updateRecord, recordsIn, List.getElem?_map, List.getElem?_map, List.getElem?_modify]
    rcases hc : (toolCalls log)[j]? with _ | c
    · have := hget j
      rw [hc, Option.map_none, Option.map_eq_none_iff] at this
      simp [this]
    · obtain ⟨call, hcall, heq⟩ : ∃ call, calls[j]? = some call ∧ call.nameStatus = (c.name, statusIn log c.number) := by
        have := hget j
        rw [hc] at this
        exact Option.map_eq_some_iff.mp this
      have hnj : ((toolCalls log).map (·.number))[j]? = some c.number := by
        rw [List.getElem?_map, hc]
        rfl
      have hij : i = j ↔ c.number = number := by
        constructor
        · rintro rfl
          exact Option.some.inj (hnj.symm.trans hi)
        · intro hcn
          have hlt := (List.getElem?_eq_some_iff.mp hi).1
          exact (List.getElem?_inj hlt hnd).mp (by rw [hi, hnj, hcn])
      rw [hcall]
      simp only [Option.map_some, statusIn_completed log hnum, hij]
      have hname : call.name = c.name := congrArg Prod.fst heq
      split
      · simp [CodemodeCall.nameStatus, hname]
      · simp [heq]

theorem OpenFrame.startCall {log : List (Entry Id Name)} {f : Frame Id} {call : StartedCall Id Name}
    {tools : List (StartedCall Id Name)} (h : OpenFrame log f)
    (htls : toolCalls (log ++ [.started call]) = toolCalls log ++ tools)
    (hmem : ∀ c ∈ tools, c = call) (hne : f.number ≠ call.number) : OpenFrame (log ++ [.started call]) f := by
  have hcmp : completions (log ++ [.started call]) = completions log := by
    rw [completions_append]
    exact append_nil _
  constructor
  · obtain ⟨c, hc, heq⟩ := h.started
    exact ⟨c, by rw [startedCalls_append]; exact mem_append_left _ hc, heq⟩
  · exact hcmp ▸ h.incomplete
  · intro i hi
    rw [htls, map_append]
    have hget := h.record i hi
    rwa [List.getElem?_append_left (List.getElem?_eq_some_iff.mp hget).1]
  · intro hnone
    rw [htls, map_append, mem_append, not_or]
    refine ⟨h.noRecord hnone, fun hin => ?_⟩
    obtain ⟨c, hc, hnum⟩ := mem_map.mp hin
    exact hne (hnum ▸ hmem c hc ▸ rfl)

namespace ExecInv

variable {s : Execution Id Name Item}

theorem toolNumbers_nodup (h : ExecInv s) : ((toolCalls s.log).map (·.number)).Nodup := by
  have hnd : ((startedCalls s.log).map (·.number)).Nodup := by
    rw [h.numbers]
    exact nodup_range'
  exact (filter_sublist.map _).nodup hnd

variable [DecidableEq Id]

omit [DecidableEq Id] in
theorem post_spec (hflu : s.channel = true → s.unsent = []) (reply : Reply Id) :
    ∃ posted unsent, s.post reply = { s with posted := posted, unsent := unsent } ∧
      posted ++ unsent = s.posted ++ s.unsent ++ [reply] ∧ (s.channel = true → unsent = []) := by
  unfold Execution.post
  split
  · rename_i hcha
    exact ⟨_, _, rfl, by rw [hflu hcha, append_nil, append_nil], hflu⟩
  · rename_i hcha
    exact ⟨_, _, rfl, by rw [append_assoc], fun hopen => absurd hopen hcha⟩

/-- **Completing a call keeps the invariant.** Before the terminal event the reply goes out and the
record is written; behind it nothing changes but the log. -/
theorem complete (h : ExecInv s) (now : ℚ) (hfrm : frame ∈ s.frames)
    (result : Except String (Option String)) : ExecInv (s.complete now frame result) := by
  have hopen := h.frames frame hfrm
  obtain ⟨call, hcall, hnum, hid⟩ := hopen.started
  unfold Execution.complete
  dsimp only
  set reply := Execution.replyTo frame.id result with hreply
  have hrepl : reply.id = frame.id := by cases result <;> rfl
  set entry : Entry Id Name := .completed frame.number (Execution.statusOf result) reply with hent
  have hstd : startedCalls (s.log ++ [entry]) = startedCalls s.log := by
    rw [startedCalls_append]
    exact append_nil _
  have htls : toolCalls (s.log ++ [entry]) = toolCalls s.log := by
    rw [toolCalls, hstd, toolCalls]
  have hcmp : completions (s.log ++ [entry]) =
      completions s.log ++ [(frame.number, Execution.statusOf result, reply)] := completions_append ..
  have hnd : ((s.frames.filter (·.number ≠ frame.number)).map (·.number)).Nodup := (filter_sublist.map _).nodup h.nodup
  have hcom : ∀ p ∈ completions (s.log ++ [entry]),
      (∃ c ∈ startedCalls (s.log ++ [entry]), c.number = p.1 ∧ c.id = p.2.2.id) ∧
        p.2.1 = if p.2.2.ok then .ok else .error := by
    rw [hcmp, hstd]
    intro p hp
    rcases mem_append.mp hp with hp | hp
    · exact h.completed p hp
    · rw [mem_singleton.mp hp]
      refine ⟨⟨call, hcall, hnum, hid.trans hrepl.symm⟩, ?_⟩
      cases result <;> rfl
  have honce : ((completions (s.log ++ [entry])).map (·.1)).Nodup := by
    rw [hcmp, map_append, nodup_append]
    refine ⟨h.once, by simp, fun a ha b hb => ?_⟩
    rintro rfl
    rw [map_singleton, mem_singleton] at hb
    subst hb
    exact hopen.incomplete ha
  rw [h.has_pending hfrm]
  rcases Bool.eq_false_or_eq_true s.finished with hf | hf
  · obtain ⟨hterm, hunt⟩ := h.late hf [entry]
    rw [if_neg (by simp [hf])]
    constructor
    · simp only [hterm, ← h.finished, hf]
    · simp only [hterm, h.settled]
    · simp only [hstd, h.numbers]
    · simp only [hunt, hstd, h.before]
    · exact h.bound
    · exact hnd
    · exact fun f hmem => h.openFrame_complete hmem
    · exact hcom
    · exact honce
    · simpa [hf] using h.pending
    · simp only [htls, hunt, h.records]
    · simp only [hunt, h.posted]
    · exact h.flushed
    · simp only [hf, Bool.true_eq_false, false_imp_iff]
  · have hterm : firstTerminal (s.log ++ [entry]) = none := by
      rw [firstTerminal_append, h.firstTerminal_eq hf]
      rfl
    have hunt : untilTerminal (s.log ++ [entry]) = s.log ++ [entry] := untilTerminal_of_none hterm
    have hall := h.all hf
    have hrecs := h.records
    rw [h.untilTerminal_eq hf] at hall hrecs
    have hrep : s.posted ++ s.unsent ++ [reply] = replies (s.log ++ [entry]) := by
      rw [hall, replies, replies, hcmp, map_append]
      rfl
    have hwri := modify_records hrecs h.toolNumbers_nodup hopen.incomplete hopen.record
      hopen.noRecord (Execution.statusOf result) reply (now - frame.pending.startedAt)
    rw [if_pos (by simp [hf])]
    obtain ⟨posted, unsent, heq, hque, hflu⟩ := post_spec (s := { s with
      frames := s.frames.filter (·.number ≠ frame.number)
      log := s.log ++ [entry]
      pending := s.pending.erase frame.id
      calls := Execution.updateRecord s.calls frame.pending.record fun c =>
        { c with status := Execution.statusOf result
                 durationMs := now - frame.pending.startedAt } }) h.flushed reply
    rw [heq]
    rw [hrep] at hque
    constructor
    · simp only [hterm, hf, Option.isSome_none]
    · simp only [hterm, h.settled, h.firstTerminal_eq hf]
    · simp only [hstd, h.numbers]
    · simp only [hunt]
    · exact h.bound
    · exact hnd
    · exact fun f hmem => h.openFrame_complete hmem
    · exact hcom
    · exact honce
    · simpa [hf] using h.pending_erase hf hfrm
    · simp only [htls, hunt]
      exact hwri
    · simp only [hunt, hque, prefix_refl]
    · exact hflu
    · simp only [hunt, hque, implies_true]

/-- **Starting a call keeps the invariant.** The call gets the next number, and a record if it is
one of a tool. -/
theorem startCall (h : ExecInv s) (hf : s.finished = false) {id : Id} (hid : s.pending.has id = false)
    (hbd : s.callCount < maxHostCalls) (now : ℚ) (isTool : Bool) (name : Name) :
    ExecInv ({ s with callCount := s.callCount + 1 }.startCall now id isTool name) := by
  unfold Execution.startCall Execution.newFrame
  dsimp only
  set call : StartedCall Id Name := ⟨s.callCount + 1, id, isTool, name⟩ with hcall
  have hstd : startedCalls (s.log ++ [.started call]) = startedCalls s.log ++ [call] := startedCalls_append ..
  have htls : toolCalls (s.log ++ [.started call]) = toolCalls s.log ++ if isTool then [call] else [] := by
    rw [toolCalls, hstd, filter_append, toolCalls]
    cases isTool <;> rfl
  have hcmp : completions (s.log ++ [.started call]) = completions s.log := by
    rw [completions_append]
    exact append_nil _
  have hterm : firstTerminal (s.log ++ [.started call]) = none := by
    rw [firstTerminal_append, h.firstTerminal_eq hf]
    rfl
  have hunt : untilTerminal (s.log ++ [.started call]) = s.log ++ [.started call] := untilTerminal_of_none hterm
  have hrep : replies (s.log ++ [.started call]) = replies s.log := by
    rw [replies, hcmp, replies]
  have hall := h.all hf
  have hrecs := h.records
  rw [h.untilTerminal_eq hf] at hall hrecs
  -- The number is new: the calls so far have smaller ones.
  have hnew : ∀ c ∈ startedCalls s.log, c.number ≠ s.callCount + 1 := fun c hc => by
    have := h.number_le hc
    omega
  have hinc : s.callCount + 1 ∉ (completions s.log).map (·.1) := fun hin => by
    obtain ⟨p, hp, hnum⟩ := mem_map.mp hin
    obtain ⟨⟨c, hc, hcp, -⟩, -⟩ := h.completed p hp
    exact hnew c hc (hcp.trans hnum)
  have hlen : s.calls.length = (toolCalls s.log).length := by
    have := congrArg List.length hrecs
    rwa [length_map, recordsIn, length_map] at this
  have hpend : s.pending.toList = s.frames.map fun f => (f.id, f.pending) := by
    rw [h.pending, hf, if_neg Bool.false_ne_true]
  have hsts : ∀ n, statusIn (s.log ++ [.started call]) n = statusIn s.log n := fun n => by
    rw [statusIn, hcmp, statusIn]
  have hnew' : statusIn s.log (s.callCount + 1) = .cancelled := by
    rw [statusIn, OrdMap.lookup_eq_none_iff_notMem.mpr hinc]
    rfl
  have hfrm : OpenFrame (s.log ++ [.started call])
      ⟨s.callCount + 1, id, if isTool then some s.calls.length else none, now⟩ := by
    refine ⟨⟨call, by rw [hstd]; simp, rfl, rfl⟩, hcmp ▸ hinc, ?_, ?_⟩
    · intro i hi
      cases isTool with
      | true =>
        rw [← Option.some.inj hi, hlen, htls, map_append, ← length_map (·.number)]
        exact List.getElem?_concat_length
      | false => cases hi
    · intro hnone
      cases isTool with
      | true => cases hnone
      | false =>
        rw [htls, if_neg Bool.false_ne_true, append_nil]
        intro hin
        obtain ⟨c, hc, hnum⟩ := mem_map.mp hin
        exact hnew c (mem_filter.mp hc).1 hnum
  constructor
  · simp only [hterm, hf, Option.isSome_none]
  · simp only [hterm, h.settled, h.firstTerminal_eq hf]
  · simp only [hstd, map_append, h.numbers]
    rw [List.range'_concat, Nat.one_mul, Nat.add_comm 1]
    rfl
  · simp only [hunt]
  · exact hbd
  · simp only [map_append, map_singleton, nodup_append]
    refine ⟨h.nodup, by simp, fun a ha b hb => ?_⟩
    obtain ⟨f, hmem, rfl⟩ := mem_map.mp ha
    obtain ⟨c, hc, hnum, -⟩ := (h.frames f hmem).started
    rw [mem_singleton.mp hb, ← hnum]
    exact hnew c hc
  · intro f hmem
    rcases mem_append.mp hmem with hmem | hmem
    · exact (h.frames f hmem).startCall htls (by cases isTool <;> simp) fun heq => by
        obtain ⟨c, hc, hnum, -⟩ := (h.frames f hmem).started
        exact hnew c hc (hnum.trans heq)
    · rw [mem_singleton.mp hmem]
      exact hfrm
  · simp only [hcmp, hstd]
    intro p hp
    obtain ⟨⟨c, hc, heq⟩, hsts⟩ := h.completed p hp
    exact ⟨⟨c, mem_append_left _ hc, heq⟩, hsts⟩
  · simp only [hcmp, h.once]
  · rw [OrdMap.toList_set_of_get?_none (by simpa [OrdMap.has] using hid), hpend]
    simp only [hf, Bool.false_eq_true, if_false, map_append, map_singleton]
  · simp only [hunt, htls, recordsIn, hsts]
    cases isTool with
    | true =>
      simp only [if_true, map_append, hrecs, recordsIn, map_singleton, hnew', hcall]
      rfl
    | false =>
      simp only [Bool.false_eq_true, if_false, append_nil]
      exact hrecs
  · simp only [hunt, hrep, hall, prefix_refl]
  · exact h.flushed
  · simp only [hunt, hrep, hall, implies_true]

end ExecInv

namespace Execution

variable {s : Execution Id Name Item}

theorem log_finish (now : ℚ) (outcome : Outcome) : (s.finish now outcome).log = s.log ++ [.terminal outcome] := by
  unfold finish
  dsimp only
  split
  · rfl
  · split <;> rfl

theorem log_cancelled (now : ℚ) (c : Option Cancel) : (s.cancelled now c).log = s.log ++ cancelEntries c := by
  cases c with
  | none => exact (append_nil _).symm
  | some c => exact log_finish now _

theorem frames_cancelled (now : ℚ) (c : Option Cancel) : (s.cancelled now c).frames = s.frames := by
  cases c with
  | none => rfl
  | some c =>
    unfold cancelled finish
    dsimp only
    split
    · rfl
    · split <;> rfl

variable [DecidableEq Id]

theorem log_complete (now : ℚ) (frame : Frame Id) (result : Except String (Option String)) :
    (s.complete now frame result).log = s.log ++ [completion frame.number frame.id result] := by
  unfold complete post
  dsimp only
  split
  · split <;> rfl
  · rfl

end Execution

section Frozen
variable {s : Execution Id Name Item}

/-- A finished execution stays as it is, for whoever has its result. -/
structure Frozen (s s' : Execution Id Name Item) : Prop where
  finished : s'.finished = true
  outcome : firstTerminal s'.log = firstTerminal s.log
  output : s'.output = s.output
  calls : s'.calls = s.calls
  started : startedCalls s'.log = startedCalls s.log

theorem Frozen.refl (hf : s.finished = true) : Frozen s s := ⟨hf, rfl, rfl, rfl, rfl⟩

theorem Frozen.trans {s' s'' : Execution Id Name Item} (h : Frozen s s') (h' : Frozen s' s'') : Frozen s s'' :=
  ⟨h'.finished, h'.outcome.trans h.outcome, h'.output.trans h.output, h'.calls.trans h.calls, h'.started.trans h.started⟩

theorem ExecInv.frozen_finish (h : ExecInv s) (hf : s.finished = true) (now : ℚ) (outcome : Outcome) :
    Frozen s (s.finish now outcome) := by
  unfold Execution.finish
  dsimp only
  rw [if_pos hf]
  exact ⟨hf, (h.late hf _).1, rfl, rfl, (startedCalls_append ..).trans (append_nil _)⟩

theorem ExecInv.frozen_cancelled (h : ExecInv s) (hf : s.finished = true) (now : ℚ)
    (c : Option Cancel) : Frozen s (s.cancelled now c) := by
  cases c with
  | none => exact .refl hf
  | some c => exact h.frozen_finish hf ..

variable [DecidableEq Id] in
theorem ExecInv.frozen_complete (h : ExecInv s) (hf : s.finished = true) (now : ℚ)
    (hfrm : frame ∈ s.frames) (result : Except String (Option String)) : Frozen s (s.complete now frame result) := by
  unfold Execution.complete
  dsimp only
  rw [h.has_pending hfrm, if_neg (by simp [hf])]
  exact ⟨hf, (h.late hf _).1, rfl, rfl, (startedCalls_append ..).trans (append_nil _)⟩

end Frozen

/-! ### Every input -/

section Steps
variable [DecidableEq Id] [ToString Id] [ToString Name] (o : ExecutionOptions Name) {s : Execution Id Name Item}

section
variable (h : ExecInv s)
include h

omit [ToString Id] in
theorem ExecInv.handleCall (hf : s.finished = false) {id : Id}
    (hid : s.pending.has id = false) (hbd : s.callCount < maxHostCalls) (now : ℚ) (target : Raw)
    (name : Name) (args : Raw) (start : ToolStart) :
    ExecInv ({ s with callCount := s.callCount + 1 }.handleCall o now id target name args start) := by
  have hpre := h.startCall hf hid hbd now (decide (target = .text "tool")) name
  unfold Execution.handleCall
  dsimp only
  have hfrm : Execution.newFrame { s with callCount := s.callCount + 1 } now id
      (decide (target = .text "tool")) ∈ (Execution.startCall { s with callCount := s.callCount + 1 } now id
        (decide (target = .text "tool")) name).frames := mem_append_right _ (mem_singleton_self _)
  split
  · exact hpre.complete _ hfrm _
  · split
    · exact hpre.complete _ hfrm _
    · have hcan := hpre.cancelled start.endedAt start.cancel
      split
      · exact hcan.complete _ ((Execution.frames_cancelled ..).symm ▸ hfrm) _
      · exact hcan

theorem ExecInv.receive (m : WorkerMessage Id Name Item) (now : ℚ)
    (start : ToolStart) : ExecInv (s.receive o m now start) := by
  unfold Execution.receive Execution.handleMessage
  rcases Bool.eq_false_or_eq_true s.finished with hf | hf
  · rw [if_pos hf]
    exact h
  · rw [if_neg (Bool.eq_false_iff.mp hf)]
    cases m with
    | unknown => exact h.finish ..
    | output item =>
      exact ⟨h.finished, h.settled, h.numbers, h.before, h.bound, h.nodup, h.frames, h.completed,
        h.once, h.pending, h.records, h.posted, h.flushed, h.all⟩
    | call id target name args =>
      dsimp only
      cases hid : s.pending.has id with
      | true => exact h.finish ..
      | false =>
        simp only [Bool.false_eq_true, if_false]
        by_cases hlim : maxHostCalls ≤ s.callCount
        · rw [if_pos hlim]
          exact h.finish ..
        · rw [if_neg hlim]
          exact h.handleCall o hf hid (by omega) ..
    | done ok value writes error =>
      dsimp only
      cases decodeDone o ok value writes error with
      | ok outcome => exact h.finish ..
      | error e => exact h.finish ..
    | crash message => exact h.finish ..

/-- **Every input keeps the invariant.** -/
theorem ExecInv.step (e : Event Id Name Item) : ExecInv (s.step o e) := by
  cases e with
  | message m now start => exact h.receive o m now start
  | settle number result cancel now =>
    unfold Execution.step
    dsimp only
    split
    · rename_i frame hfind
      have hfrm : frame ∈ s.frames := mem_of_find?_eq_some hfind
      exact (h.cancelled now cancel).complete now ((Execution.frames_cancelled ..).symm ▸ hfrm) result
    · exact h
  | launched =>
    unfold Execution.step
    dsimp only
    split
    · exact h
    · exact ⟨h.finished, h.settled, h.numbers, h.before, h.bound, h.nodup, h.frames, h.completed,
        h.once, h.pending, h.records, by simpa using h.posted, fun _ => rfl, by simpa using h.all⟩
  | launchFailed message now | failure error now | deadline now => exact h.finish ..
  | cancel c now => exact h.cancelled now (some c)
  | stopped =>
    unfold Execution.step
    dsimp only
    split
    · rename_i outcome hsto
      have hstl := h.settled
      rw [hsto] at hstl
      exact ⟨h.finished, by simpa using hstl, h.numbers, h.before, h.bound, h.nodup, h.frames,
        h.completed, h.once, h.pending, h.records, h.posted, h.flushed, h.all⟩
    · exact h

/-- **No input changes a finished execution.** -/
theorem ExecInv.frozen_step (hf : s.finished = true) (e : Event Id Name Item) : Frozen s (s.step o e) := by
  cases e with
  | message m now start =>
    unfold Execution.step Execution.receive Execution.handleMessage
    dsimp only
    rw [if_pos hf]
    exact .refl hf
  | settle number result cancel now =>
    unfold Execution.step
    dsimp only
    split
    · rename_i frame hfind
      have hfrm : frame ∈ s.frames := mem_of_find?_eq_some hfind
      have hcan := h.frozen_cancelled hf now cancel
      exact hcan.trans ((h.cancelled now cancel).frozen_complete hcan.finished now
        ((Execution.frames_cancelled ..).symm ▸ hfrm) result)
    · exact .refl hf
  | launched =>
    unfold Execution.step
    dsimp only
    rw [if_pos hf]
    exact .refl hf
  | launchFailed message now | failure error now | deadline now => exact h.frozen_finish hf ..
  | cancel c now => exact h.frozen_cancelled hf now (some c)
  | stopped =>
    unfold Execution.step
    dsimp only
    split
    · exact ⟨hf, rfl, rfl, rfl, rfl⟩
    · exact .refl hf

theorem ExecInv.run (es : List (Event Id Name Item)) : ExecInv (es.foldl (Execution.step o) s) := by
  induction es generalizing s with
  | nil => exact h
  | cons e es ih => exact ih (h.step o e)

theorem ExecInv.frozen_run (hf : s.finished = true) (es : List (Event Id Name Item)) :
    Frozen s (es.foldl (Execution.step o) s) := by
  induction es generalizing s with
  | nil => exact .refl hf
  | cons e es ih =>
    have hstep := h.frozen_step o hf e
    exact hstep.trans (ih (h.step o e) hstep.finished)

end

/-! ### The outcome of a script -/

omit [DecidableEq Id] [ToString Id] [ToString Name] in
theorem decodeDone_succeeded {ok : Bool} {value writes error : Raw}
    (h : decodeDone o ok value writes error = .ok (.succeeded v w)) : ok = true ∧ parseStoreWrites o writes = .ok w := by
  cases ok with
  | true =>
    refine ⟨rfl, ?_⟩
    rw [decodeDone, if_pos rfl] at h
    obtain ⟨v', -, h⟩ := bind_ok_iff.mp h
    obtain ⟨w', hwrit, h⟩ := bind_ok_iff.mp h
    cases h
    exact hwrit
  | false =>
    rw [decodeDone, if_neg Bool.false_ne_true] at h
    obtain ⟨e, -, h⟩ := bind_ok_iff.mp h
    cases h

omit [ToString Id] in
theorem Execution.log_handleCall (now : ℚ) (id : Id) (target : Raw) (name : Name) (args : Raw) (start : ToolStart) :
    (s.handleCall o now id target name args start).log =
      s.log ++ callEntries o s.callCount id (target = .text "tool") name args start := by
  unfold Execution.handleCall callEntries
  dsimp only
  split
  · exact (log_complete ..).trans (append_assoc ..)
  · cases parseArgs o args with
    | error message => exact (log_complete ..).trans (append_assoc ..)
    | ok _ =>
      cases start.thrown with
      | none =>
        refine (log_cancelled ..).trans ((append_assoc ..).trans ?_)
        exact congrArg (fun entries => s.log ++ (_ :: entries)) (append_nil (cancelEntries start.cancel)).symm
      | some message =>
        refine (log_complete ..).trans ?_
        rw [log_cancelled]
        exact (append_assoc ..).trans (append_assoc ..)

/-- **An input adds its entries to the log.** -/
theorem Execution.log_step (e : Event Id Name Item) : (s.step o e).log = s.log ++ s.entries o e := by
  cases e with
  | message m now start =>
    unfold Execution.step Execution.receive Execution.handleMessage entries
    dsimp only
    by_cases hf : s.finished = true
    · rw [if_pos hf, if_pos hf, append_nil]
    · rw [if_neg hf, if_neg hf]
      cases m with
      | unknown | crash message => exact log_finish ..
      | output item => exact (append_nil _).symm
      | call id target name args =>
        dsimp only
        split_ifs
        · exact log_finish ..
        · exact log_finish ..
        · exact log_handleCall ..
      | done ok value writes error =>
        dsimp only
        cases decodeDone o ok value writes error with
        | ok outcome => exact log_finish ..
        | error e => exact log_finish ..
  | settle number result cancel now =>
    unfold Execution.step entries
    dsimp only
    cases s.frames.find? (·.number = number) with
    | some frame => exact (log_complete ..).trans (log_cancelled .. ▸ append_assoc ..)
    | none => exact (append_nil _).symm
  | launched =>
    unfold Execution.step
    dsimp only
    split
    · exact (append_nil _).symm
    · exact (append_nil _).symm
  | launchFailed message now | failure error now | deadline now => exact log_finish ..
  | cancel c now => exact log_cancelled ..
  | stopped =>
    unfold Execution.step
    dsimp only
    split
    · exact (append_nil _).symm
    · exact (append_nil _).symm

theorem Execution.log_run (es : List (Event Id Name Item)) :
    (es.foldl (Execution.step o) s).log = s.log ++ s.entriesOf o es := by
  induction es generalizing s with
  | nil => exact (append_nil _).symm
  | cons e es ih => rw [foldl_cons, ih, log_step, entriesOf, append_assoc]

omit [DecidableEq Id] [ToString Id] [ToString Name] in
theorem firstTerminal_cancelEntries_ne (c : Option Cancel) (log : List (Entry Id Name))
    (h : firstTerminal log ≠ some (.succeeded v w)) : firstTerminal (Execution.cancelEntries c ++ log) ≠ some (.succeeded v w) := by
  cases c with
  | none => exact h
  | some c => exact nofun

omit [DecidableEq Id] [ToString Id] in
theorem firstTerminal_callEntries_ne (number : ℕ) (id : Id) (isTool : Bool) (name : Name) (args : Raw) (start : ToolStart) :
    firstTerminal (Execution.callEntries o number id isTool name args start) ≠ some (.succeeded v w) := by
  change firstTerminal (ite _ _ _) ≠ _
  split
  · exact nofun
  · split
    · exact nofun
    · refine firstTerminal_cancelEntries_ne _ _ ?_
      cases start.thrown with
      | none => exact nofun
      | some message => exact nofun

/-- The input that ends an execution with a success is the `done` message that reports it. -/
theorem Execution.entries_succeeded {e : Event Id Name Item} (h : firstTerminal (s.entries o e) = some (.succeeded v w)) :
    ∃ value writes error now start, e = .message (.done true value writes error) now start ∧
      decodeDone o true value writes error = .ok (.succeeded v w) := by
  cases e with
  | message m now start =>
    unfold entries at h
    dsimp only at h
    by_cases hf : s.finished = true
    · rw [if_pos hf] at h
      exact nomatch h
    · rw [if_neg hf] at h
      cases m with
      | unknown | output item | crash message => exact nomatch h
      | call id target name args =>
        dsimp only at h
        split_ifs at h
        · exact nomatch h
        · exact nomatch h
        · exact absurd h (firstTerminal_callEntries_ne o _ _ _ _ _ _)
      | done ok value writes error =>
        dsimp only at h
        cases hdec : decodeDone o ok value writes error with
        | ok outcome =>
          rw [hdec] at h
          cases h
          obtain ⟨rfl, -⟩ := decodeDone_succeeded o hdec
          exact ⟨value, writes, error, now, start, rfl, hdec⟩
        | error e =>
          rw [hdec] at h
          exact nomatch h
  | settle number result cancel now =>
    unfold entries at h
    dsimp only at h
    split at h
    · exact absurd h (firstTerminal_cancelEntries_ne _ _ nofun)
    · exact nomatch h
  | launched | launchFailed message now | failure error now | deadline now | cancel c now | stopped => exact nomatch h

/-! ### The contract -/

/-- What holds of an execution at any time. `resolutions` are the calls of `resolveResult`: there is
one, with the first outcome, once the channel has stopped. -/
structure OneOutcome (s : Execution Id Name Item) : Prop where
  resolved : s.resolutions ++ s.stopping.toList = (firstTerminal s.log).toList
  stopped : (s.step o .stopped).resolutions = (firstTerminal s.log).toList
  bounded : (startedCalls s.log).length ≤ maxHostCalls
  noneAfter : startedCalls s.log = startedCalls (untilTerminal s.log)
  numbered : ((startedCalls s.log).map (·.number)).Nodup
  records : s.calls.map CodemodeCall.nameStatus = recordsIn (untilTerminal s.log) (toolCalls s.log)
  completed : ∀ p ∈ completions s.log, (∃ c ∈ startedCalls s.log, c.number = p.1 ∧ c.id = p.2.2.id) ∧
    p.2.1 = if p.2.2.ok then .ok else .error
  once : ((completions s.log).map (·.1)).Nodup
  posted : s.posted <+: replies (untilTerminal s.log)
  flushed : s.channel = true → s.finished = false → s.posted = replies (untilTerminal s.log)

variable {o} in
theorem ExecInv.oneOutcome (h : ExecInv s) : OneOutcome o s := by
  constructor
  · exact h.settled
  · rw [← h.settled]
    unfold Execution.step
    dsimp only
    split
    · rename_i outcome hsto
      rw [hsto]
      rfl
    · rename_i hsto
      rw [hsto]
      exact (append_nil _).symm
  · rw [← length_map, h.numbers, length_range']
    exact h.bound
  · exact h.before.symm
  · rw [h.numbers]
    exact nodup_range'
  · exact h.records
  · exact h.completed
  · exact h.once
  · exact (prefix_append ..).trans h.posted
  · intro hcha hf
    rw [← h.all hf, h.flushed hcha, append_nil]

omit [DecidableEq Id] [ToString Id] [ToString Name] in
theorem ExecInv.start (aborted : Option Cancel) (now : ℚ) :
    ExecInv (Execution.start aborted now : Execution Id Name Item) := by
  have hemp : ExecInv ({} : Execution Id Name Item) := by
    constructor <;> simp [firstTerminal, startedCalls, untilTerminal, completions, toolCalls, recordsIn, replies]
  exact hemp.cancelled now aborted

end Steps

/-- Two tools and a global are called before the channel is there; one tool does not exist. -/
example :
    let o : ExecutionOptions String := {
      parse := fun _ => .ok .null, tools := (· = "read"), globals := fun _ => true, timeoutMs := 10 }
    let s := [Event.message (.call 1 (.text "tool") "read" .undefined) 1 {},
      .message (.call 2 (.text "tool") "write" .undefined) 2 {},
      .message (.call 3 (.text "global") "log" .undefined) 3 {}, .settle 3 (.ok none) none 4, .launched,
      .deadline 5, .settle 1 (.ok none) none 6, .stopped].foldl
        (Execution.step o) (Execution.start none 0 : Execution ℕ String Unit)
    s.calls = [⟨"read", .cancelled, 4⟩, ⟨"write", .error, -2⟩] ∧ s.posted.map (·.id) = [2, 3] ∧
      s.resolutions.length = 1 := by decide +kernel

end EasyPi.Codemode
