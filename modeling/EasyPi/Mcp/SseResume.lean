/-
# Resuming a stream

The loop that reconnects asks for the events after the one its cursor stands at. As long as
no connection leaves an event half read, the events delivered so far are those up to the
cursor, so that nothing is lost and nothing comes twice, however often the stream is resumed.
-/
import EasyPi.Ai.JsonText
import EasyPi.Mcp.SseConnection

namespace EasyPi.Mcp

open List

variable {parse : String → Option JsonValue} {rid : JsonValue} {limit : ℕ}

/-! ### Where a run stands -/

section Run

variable (parse) (rid) (maxEventBytes maxRetries : ℕ) (events : List ServerEvent) (body : Connection)
  (used : List Reopening)

/-- The events that have come after one more attempt. -/
def arrive (done : List ServerEvent) : Reopening → List ServerEvent
  | .opened stream => done ++ (done.getLast?).toList.flatMap fun e => (stream e.id).arrived (replay events e.id)
  | _ => done

/-- The events that have come when these attempts have been made. -/
def arrivals : List ServerEvent := used.foldl (arrive events) (body.arrived events)

/-- The connection read last, unless the last attempt opened none. -/
def lastConnection : Option Connection :=
  match used.getLast? with
  | none => some body
  | some (.opened stream) => ((arrivals events body used.dropLast).getLast?).map fun e => stream e.id
  | some _ => none

/-- The request is aborted by the end of these attempts. -/
def Aborted : Prop :=
  used.getLast? = some .aborted ∨ ∃ c ∈ lastConnection events body used, c.aborted = true

/-- The last attempt has failed with an error that is not retried. -/
def Broken (failure : StreamFailure) : Prop :=
  failure.retryable = false ∧ (used.getLast? = some (.failed failure) ∨
    ∃ c ∈ lastConnection events body used, c.failure = some failure ∨
      failure = SseReader.tooLarge maxEventBytes ∧ maxEventBytes < c.bytes)

/-- So many reconnections in a row, and no message has come before the last of them. -/
def Exhausted : Prop :=
  ∃ before tries, used = before ++ tries ∧ maxRetries ≤ tries.length ∧
    messages parse (arrivals events body (before ++ tries.dropLast)) = messages parse (arrivals events body before)

/-- The streams of a script serve the events after the id they are asked for, and leave no event
half read. -/
def ScriptServes (script : List Reopening) : Prop :=
  ∀ stream, .opened stream ∈ script → ∀ id, (stream id).Serves (replay events id) ∧
    (stream id).Clean parse (replay events id)

/-- How far the events have been delivered when these attempts have been made. -/
structure Resumable (s : ResponseStream) (aborted : Bool) (attempt : ℕ) (failure : Option StreamFailure)
    (done todo : List ServerEvent) : Prop where
  events_eq : events = done ++ todo
  emitted : s.emitted = messages parse done
  answered : s.answered = (messages parse done).any (isResponseTo rid)
  asked : used ≠ [] → done ≠ []
  aborts : aborted = true → Aborted events body used
  breaks : ∀ f ∈ failure, f.retryable = false → Broken maxEventBytes events body used f
  came : aborted = false → failure ≠ some (SseReader.tooLarge maxEventBytes) →
    s.lastEventId = (done.getLast?).map ServerEvent.id ∧ done = arrivals events body used
  quiet : aborted = false → failure ≠ some (SseReader.tooLarge maxEventBytes) → s.received = false →
    messages parse (arrivals events body used) = messages parse (arrivals events body used.dropLast)
  tried : ∃ before tries, used = before ++ tries ∧ tries.length = attempt ∧
    messages parse (arrivals events body (before ++ tries.dropLast)) = messages parse (arrivals events body before)

def LoopResult (rest : List Reopening) (result : ResponseStream × StreamStatus) : Prop :=
  ∃ done, done <+: events ∧ result.1.emitted = messages parse done ∧
    let answered := (messages parse done).any (isResponseTo rid)
    match result.2 with
    | .waiting => answered = false ∧ rest = [] ∧ done = arrivals events body used
    | .returned => answered = true ∨ Aborted events body used
    | .failed failure => answered = false ∧
        (failure ≠ some (SseReader.tooLarge maxEventBytes) → done = arrivals events body used) ∧
        ((∃ f ∈ failure, Broken maxEventBytes events body used f) ∨
          used = [] ∧ arrivals events body used = [] ∨ Exhausted parse maxRetries events body used)

theorem arrivals_concat (reopening : Reopening) :
    arrivals events body (used ++ [reopening]) = arrive events (arrivals events body used) reopening := by
  rw [arrivals, foldl_append]
  rfl

end Run

/-! ### Reconnecting -/

attribute [local simp] resumeLoop

theorem replay_getLast {done todo : List ServerEvent} {e : ServerEvent}
    (hids : ((done ++ todo).map ServerEvent.id).Nodup) (hlast : done.getLast? = some e) :
    replay (done ++ todo) e.id = todo := by
  obtain ⟨before, rfl⟩ : ∃ before, done = before ++ [e] := ⟨done.dropLast, (dropLast_append_getLast? e hlast).symm⟩
  have hdrop : ∀ e' ∈ before, decide (e'.id ≠ e.id) = true := by
    intro e' he'
    simp only [append_assoc, map_append, nodup_append] at hids
    simpa using hids.2.2 e'.id (mem_map_of_mem he') e.id (by simp)
  rw [replay, append_assoc, dropWhile_append_of_pos hdrop]
  simp

section Loop

variable {maxRetries : ℕ} {events : List ServerEvent} {body : Connection} {used : List Reopening}
  {s : ResponseStream} {aborted : Bool} {attempt : ℕ} {failure : Option StreamFailure} {done todo : List ServerEvent}

theorem retryable_ne_tooLarge (h : failure.any (!·.retryable) = false) : failure ≠ some (SseReader.tooLarge limit) := by
  rintro rfl
  cases h

theorem Resumable.stops_or_waits
    (h : Resumable parse rid limit events body used s aborted attempt failure done todo)
    (maxRetries : ℕ) (script : List Reopening) : LoopResult parse rid limit maxRetries events body used script
        (resumeLoop parse rid limit maxRetries s aborted attempt failure script) ∨
      s.answered = false ∧ aborted = false ∧ failure.any (!·.retryable) = false ∧
        attempt < maxRetries ∧ ∃ id, s.lastEventId = some id := by
  have hdone : done <+: events := ⟨todo, h.events_eq.symm⟩
  by_cases hretu : (s.answered || aborted) = true
  · have heq : resumeLoop parse rid limit maxRetries s aborted attempt failure script = (s, .returned) := by
      cases script <;> simp [hretu]
    rw [heq]
    refine .inl ⟨done, hdone, h.emitted, ?_⟩
    obtain hans | haborted := Bool.or_eq_true_iff.mp hretu
    · exact .inl (h.answered ▸ hans)
    · exact .inr (h.aborts haborted)
  obtain ⟨hans, haborted⟩ : s.answered = false ∧ aborted = false := by simpa using hretu
  have hfail (hfailure : failure ≠ some (SseReader.tooLarge limit) → done = arrivals events body used)
      (hwhy : (∃ f ∈ failure, Broken limit events body used f) ∨
        used = [] ∧ arrivals events body used = [] ∨ Exhausted parse maxRetries events body used) :
      LoopResult parse rid limit maxRetries events body used script (s, .failed failure) :=
    ⟨done, hdone, h.emitted, h.answered.symm.trans hans, hfailure, hwhy⟩
  by_cases hbad : failure.any (!·.retryable) = true
  · have heq : resumeLoop parse rid limit maxRetries s aborted attempt failure script =
        (s, .failed failure) := by
      cases script <;> simp [hans, haborted, hbad]
    obtain ⟨f, rfl, hf⟩ := (Option.any_eq_true _ _).mp hbad
    rw [heq]
    exact .inl (hfail (fun hne => (h.came haborted hne).2) (.inl ⟨f, rfl, h.breaks f rfl (by simpa using hf)⟩))
  have hgood : failure.any (!·.retryable) = false := by simpa using hbad
  obtain ⟨hcur, hcame⟩ := h.came haborted (retryable_ne_tooLarge hgood)
  cases hid : s.lastEventId with
  | none =>
    have heq : resumeLoop parse rid limit maxRetries s aborted attempt failure script =
        (s, .failed failure) := by
      cases script <;> simp [hans, haborted, hgood, hid]
    rw [heq]
    have hnil : done = [] := by simpa [hid] using hcur
    have hused : used = [] := by
      by_contra hne
      exact h.asked hne hnil
    exact .inl (hfail (fun _ => hcame) (.inr (.inl ⟨hused, hcame ▸ hnil⟩)))
  | some id =>
    by_cases hmax : maxRetries ≤ attempt
    · have heq : resumeLoop parse rid limit maxRetries s aborted attempt failure script =
          (s, .failed failure) := by
        cases script <;> simp [hans, haborted, hgood, hid, hmax]
      rw [heq]
      obtain ⟨before, tries, hsplit, hlen, hmsgs⟩ := h.tried
      exact .inl (hfail (fun _ => hcame) (.inr (.inr ⟨before, tries, hsplit, hlen ▸ hmax, hmsgs⟩)))
    · exact .inr ⟨hans, haborted, hgood, by omega, id, rfl⟩

/-- One attempt more, counted from the last time that a message came. -/
theorem Resumable.tried_concat (h : Resumable parse rid limit events body used s false attempt failure done todo)
    (hretr : failure.any (!·.retryable) = false) (reopening : Reopening) :
    ∃ before tries, used ++ [reopening] = before ++ tries ∧ tries.length = (if s.received then 0 else attempt) + 1 ∧
      messages parse (arrivals events body (before ++ tries.dropLast)) = messages parse (arrivals events body before) := by
  cases hrec : s.received with
  | true => exact ⟨used, [reopening], rfl, rfl, by simp⟩
  | false =>
    obtain ⟨before, tries, rfl, hlen, hmsgs⟩ := h.tried
    refine ⟨before, tries ++ [reopening], by simp, by simp [hlen], ?_⟩
    rw [dropLast_concat]
    cases htries : tries using List.reverseRecOn with
    | nil => simp
    | append_singleton front last =>
      have hquiet := h.quiet rfl (retryable_ne_tooLarge hretr) hrec
      rw [htries, ← append_assoc, dropLast_concat] at hquiet
      rw [htries, dropLast_concat] at hmsgs
      rw [← append_assoc]
      exact hquiet.trans hmsgs

theorem resumeLoop_cons (hans : s.answered = false)
    (hretr : failure.any (!·.retryable) = false) (hmax : attempt < maxRetries) {id : List Char}
    (hid : s.lastEventId = some id) (reopening : Reopening) (script : List Reopening) :
    let attempt' := (if s.received then 0 else attempt) + 1
    resumeLoop parse rid limit maxRetries s false attempt failure (reopening :: script) =
      match reopening with
      | .aborted => ({ s with received := false }, .returned)
      | .unavailable => resumeLoop parse rid limit maxRetries
          { s with received := false } false attempt' failure script
      | .failed failure =>
        if failure.retryable then resumeLoop parse rid limit maxRetries
          { s with received := false } false attempt' (some failure) script
        else ({ s with received := false }, .failed (some failure))
      | .opened stream => resumeLoop parse rid limit maxRetries
          (consumeSse parse rid limit { s with received := false } (stream id)).1
          (stream id).aborted attempt'
          (consumeSse parse rid limit { s with received := false } (stream id)).2
          script := by
  intro attempt'
  obtain ⟨lastEventId, received, answered, emitted⟩ := s
  obtain rfl : lastEventId = some id := hid
  obtain rfl : answered = false := hans
  rw [resumeLoop]
  simp only [Bool.or_self, Bool.false_eq_true, if_false, hretr, ge_iff_le, Nat.not_le.mpr hmax]
  cases reopening <;> rfl

/-- An attempt that opens a stream delivers some of the events that are left. -/
theorem Resumable.opened (hids : (events.map ServerEvent.id).Nodup)
    (h : Resumable parse rid limit events body used s false attempt failure done todo)
    (hretr : failure.any (!·.retryable) = false) {e : ServerEvent} (hlast : done.getLast? = some e)
    {stream : List Char → Connection} (hser : (stream e.id).Serves (replay events e.id))
    (hcle : (stream e.id).Clean parse (replay events e.id)) :
    let read := consumeSse parse rid limit { s with received := false } (stream e.id)
    ∃ done todo, Resumable parse rid limit events body (used ++ [.opened stream]) read.1 (stream e.id).aborted
      ((if s.received then 0 else attempt) + 1) read.2 done todo := by
  obtain ⟨hcur, hcame⟩ := h.came rfl (retryable_ne_tooLarge hretr)
  have hrpl : replay events e.id = todo := by
    rw [h.events_eq]
    exact replay_getLast (h.events_eq ▸ hids) hlast
  rw [hrpl] at hser hcle
  obtain ⟨more, rest, rfl, hdel, hat⟩ :=
    @consumeSse_spec parse rid limit _ _ hser hcle { s with received := false }
  have hconn : lastConnection events body (used ++ [.opened stream]) = some (stream e.id) := by
    simp [lastConnection, ← hcame, hlast]
  have harr (heq : more = (stream e.id).arrived (more ++ rest)) :
      arrivals events body (used ++ [.opened stream]) = done ++ more := by
    rw [arrivals_concat, ← hcame, arrive, hlast]
    simp [hrpl, ← heq]
  refine ⟨done ++ more, rest, by rw [h.events_eq, append_assoc], ?_, ?_, fun _ hnil => ?_, ?_, ?_, fun hab hne => ?_,
    fun hab hne hrec => ?_, h.tried_concat hretr _⟩
  · rw [hdel.emitted, ResponseStream.messages_append, h.emitted]
  · rw [hdel.answered, ResponseStream.messages_append, any_append, h.answered]
  · rw [(append_eq_nil_iff.mp hnil).1] at hlast
    cases hlast
  · exact fun hab => .inr ⟨_, hconn, hab⟩
  · exact fun f hf hnot => ⟨hnot, .inr ⟨_, hconn, consumeSse_failure _ hf⟩⟩
  · obtain ⟨hcursor, heq⟩ := hat hab hne
    refine ⟨hcursor.trans ?_, (harr heq).symm⟩
    rw [List.getLast?_append, hcur]
    cases more.getLast? <;> rfl
  · obtain ⟨-, heq⟩ := hat hab hne
    rw [harr heq, dropLast_concat, ← hcame, ResponseStream.messages_append, hdel.quiet hrec, append_nil]

/-- **The loop** delivers the messages of the first events, whatever becomes of its attempts. -/
theorem resumeLoop_spec (hids : (events.map ServerEvent.id).Nodup) {script : List Reopening}
    (hscript : ScriptServes parse events script)
    (h : Resumable parse rid limit events body used s aborted attempt failure done todo) :
    ∃ more rest, script = more ++ rest ∧ LoopResult parse rid limit maxRetries events body (used ++ more) rest
        (resumeLoop parse rid limit maxRetries s aborted attempt failure script) := by
  induction script generalizing used s aborted attempt failure done todo with
  | nil =>
    refine ⟨[], [], rfl, ?_⟩
    rw [append_nil]
    obtain hstop | ⟨hans, haborted, hretr, hmax, id, hid⟩ := h.stops_or_waits maxRetries []
    · exact hstop
    · have hwait : resumeLoop parse rid limit maxRetries s aborted attempt failure [] =
          ({ s with received := false }, .waiting) := by
        simp [hans, haborted, hretr, hid, Nat.not_le.mpr hmax]
      rw [hwait]
      exact ⟨done, ⟨todo, h.events_eq.symm⟩, h.emitted, h.answered.symm.trans hans, rfl,
        (h.came haborted (retryable_ne_tooLarge hretr)).2⟩
  | cons reopening script ih =>
    obtain hstop | ⟨hans, haborted, hretr, hmax, id, hid⟩ :=
      h.stops_or_waits maxRetries (reopening :: script)
    · exact ⟨[], _, rfl, by rwa [append_nil]⟩
    subst haborted
    obtain ⟨hcur, hcame⟩ := h.came rfl (retryable_ne_tooLarge hretr)
    obtain ⟨e, hlast, rfl⟩ := Option.map_eq_some_iff.mp (hcur.symm.trans hid)
    have htail : ScriptServes parse events script := fun stream hstr =>
      hscript stream (mem_cons_of_mem _ hstr)
    have hasked : used ++ [reopening] ≠ [] → done ≠ [] := fun _ hnil => by
      rw [hnil] at hlast
      cases hlast
    have hstep {result : ResponseStream × StreamStatus} (hres : ∃ more rest, script = more ++ rest ∧
        LoopResult parse rid limit maxRetries events body (used ++ [reopening] ++ more) rest result) :
        ∃ more rest, reopening :: script = more ++ rest ∧
          LoopResult parse rid limit maxRetries events body (used ++ more) rest result := by
      obtain ⟨more, rest, rfl, hres⟩ := hres
      exact ⟨reopening :: more, rest, rfl, by rwa [append_assoc] at hres⟩
    have hends {status : StreamStatus} (hres : LoopResult parse rid limit maxRetries events body
        (used ++ [reopening]) script ({ s with received := false }, status)) :=
      hstep ⟨[], script, rfl, (append_nil (used ++ [reopening])).symm ▸ hres⟩
    -- an attempt that opens no stream
    have hidle (hsame : arrive events done reopening = done) {failure : Option StreamFailure}
        (hretr' : failure.any (!·.retryable) = false) :
        Resumable parse rid limit events body (used ++ [reopening]) { s with received := false } false
          ((if s.received then 0 else attempt) + 1) failure done todo := by
      have harr : arrivals events body (used ++ [reopening]) = arrivals events body used := by
        rw [arrivals_concat, ← hcame, hsame]
      refine ⟨h.events_eq, h.emitted, h.answered, hasked, nofun, fun f hf hnot => ?_, fun _ _ => ⟨hcur, harr ▸ hcame⟩,
        fun _ _ _ => ?_, h.tried_concat hretr reopening⟩
      · obtain rfl : failure = some f := hf
        simp [hnot] at hretr'
      · rw [dropLast_concat, harr]
    rw [resumeLoop_cons hans hretr hmax hid reopening script]
    cases reopening with
    | aborted =>
      exact hends ⟨done, ⟨todo, h.events_eq.symm⟩, h.emitted, .inr (.inl (by simp))⟩
    | unavailable => exact hstep (ih htail (hidle rfl hretr))
    | failed f =>
      simp only
      split
      · next hf => exact hstep (ih htail (hidle rfl (by simp [hf])))
      · next hf =>
        have hf : f.retryable = false := by simpa using hf
        refine hends ⟨done, ⟨todo, h.events_eq.symm⟩, h.emitted, h.answered.symm.trans hans, fun _ => ?_,
          .inl ⟨f, rfl, hf, .inl (by simp)⟩⟩
        rw [arrivals_concat, ← hcame]
        rfl
    | opened stream =>
      obtain ⟨hser, hcle⟩ := hscript stream mem_cons_self e.id
      obtain ⟨_, _, hnext⟩ := h.opened hids hretr hlast hser hcle
      exact hstep (ih htail hnext)

end Loop

/-! ### The response stream -/

/-- No message follows a response to the request. -/
def ResponseLast (requestId : JsonValue) (sent : List JsonValue) : Prop :=
  ∀ before m after, sent = before ++ m :: after → isResponseTo requestId m = true → after = []

theorem ResponseLast.eq_of_isPrefix {all sent : List JsonValue} (h : ResponseLast rid all)
    (hsent : sent <+: all) (hany : sent.any (isResponseTo rid) = true) : sent = all := by
  obtain ⟨after, rfl⟩ := hsent
  obtain ⟨m, hm, hresp⟩ := any_eq_true.mp hany
  obtain ⟨a, b, rfl⟩ := append_of_mem hm
  have hnil := h a m (b ++ after) (by simp) hresp
  obtain ⟨-, rfl⟩ := append_eq_nil_iff.mp hnil
  rw [append_nil]

theorem ResponseLast.countP_eq_one {all : List JsonValue} (h : ResponseLast rid all)
    (hany : all.any (isResponseTo rid) = true) : all.countP (isResponseTo rid) = 1 := by
  obtain ⟨m, hm, hresp⟩ := any_eq_true.mp hany
  obtain ⟨a, b, rfl⟩ := append_of_mem hm
  obtain rfl := h a m b rfl hresp
  have hzero : a.countP (isResponseTo rid) = 0 := by
    refine countP_eq_zero.mpr fun m' hm' hresp' => ?_
    obtain ⟨a₁, a₂, rfl⟩ := append_of_mem hm'
    have := h a₁ m' (a₂ ++ [m]) (by simp) hresp'
    simp at this
  rw [countP_append, hzero, countP_singleton, if_pos hresp]

theorem countP_eq_zero_of_any {sent : List JsonValue}
    (h : sent.any (isResponseTo rid) = false) : sent.countP (isResponseTo rid) = 0 := by
  refine countP_eq_zero.mpr fun m hm hresp => ?_
  rw [any_eq_true.mpr ⟨m, hm, hresp⟩] at h
  cases h

/-- **A resumed stream loses and repeats nothing** as long as no connection leaves an event half
read and the response is the last message. After the attempts that are made, what is emitted is, in order and
once each, the messages of the events that have come; all of them, with the one response, when the stream has been
answered. The client waits only for a further attempt, and it responds itself, once, only when an error is not
retried, no id has come, or it has reconnected as often as it may with no message coming in between. -/
theorem resumed_stream_exact (parse : String → Option JsonValue) {requestId : JsonValue}
    (hrequest : isJsonRpcId requestId = true) (maxEventBytes maxRetries : ℕ)
    {events : List ServerEvent} (hids : (events.map ServerEvent.id).Nodup)
    (hlast : ResponseLast requestId (messages parse events)) {body : Connection}
    (hbody : body.Serves events ∧ body.Clean parse events) {script : List Reopening}
    (hscript : ScriptServes parse events script) :
    ∃ used rest sent, script = used ++ rest ∧ sent <+: messages parse events ∧
      match consumeResponseStream parse requestId maxEventBytes maxRetries body script with
      | (emitted, .waiting) => rest = [] ∧ emitted = sent ∧ sent = messages parse (arrivals events body used) ∧
          emitted.countP (isResponseTo requestId) = 0
      | (emitted, .returned) => emitted = sent ∧
          (emitted = messages parse events ∧ emitted.countP (isResponseTo requestId) = 1 ∨ Aborted events body used)
      | (emitted, .failed failure) =>
        emitted = sent ++ [errorResponse requestId internalError (failureMessage failure)] ∧
          emitted.countP (isResponseTo requestId) = 1 ∧
          (failure ≠ some (SseReader.tooLarge maxEventBytes) → sent = messages parse (arrivals events body used)) ∧
          ((∃ f ∈ failure, Broken maxEventBytes events body used f) ∨
            used = [] ∧ arrivals events body used = [] ∨ Exhausted parse maxRetries events body used) := by
  obtain ⟨done, todo, rfl, hdel, hat⟩ := @consumeSse_spec parse requestId maxEventBytes _ _ hbody.1 hbody.2 {}
  have hsta : Resumable parse requestId maxEventBytes (done ++ todo) body []
      (consumeSse parse requestId maxEventBytes {} body).1 body.aborted 0
      (consumeSse parse requestId maxEventBytes {} body).2 done todo := by
    refine ⟨rfl, by simpa using hdel.emitted, by simpa using hdel.answered, fun hne => absurd rfl hne,
      fun hab => .inr ⟨body, rfl, hab⟩, fun f hf hnot => ⟨hnot, .inr ⟨body, rfl, consumeSse_failure _ hf⟩⟩,
      fun hab hne => ?_, fun _ _ _ => rfl, [], [], rfl, rfl, rfl⟩
    obtain ⟨hcur, heq⟩ := hat hab hne
    exact ⟨by simpa [AtCursor] using hcur, heq⟩
  obtain ⟨used, rest, hsplit, sent, hsent, hemi, hsts⟩ := 
    @resumeLoop_spec parse requestId maxEventBytes maxRetries _ _ _ _ _ _ _ _ _ hids _ hscript hsta
  rw [nil_append] at hsts
  obtain ⟨after, hafter⟩ := hsent
  have hpre : messages parse sent <+: messages parse (done ++ todo) :=
    ⟨messages parse after, by rw [← hafter, ResponseStream.messages_append]⟩
  refine ⟨used, rest, messages parse sent, hsplit, hpre, ?_⟩
  simp only [consumeResponseStream]
  generalize resumeLoop parse requestId maxEventBytes maxRetries _ _ _ _ _ = result at *
  obtain ⟨s, status⟩ := result
  simp only at hemi hsts
  cases status with
  | waiting =>
    obtain ⟨hnone, hrest, heq⟩ := hsts
    exact ⟨hrest, hemi, congrArg _ heq, hemi ▸ countP_eq_zero_of_any hnone⟩
  | returned =>
    refine ⟨hemi, hsts.imp_left fun hany => ?_⟩
    have hall := hemi.trans (hlast.eq_of_isPrefix hpre hany)
    exact ⟨hall, hall ▸ hlast.countP_eq_one (hall ▸ hemi ▸ hany)⟩
  | failed failure =>
    obtain ⟨hnone, hcame, hwhy⟩ := hsts
    refine ⟨congrArg (· ++ _) hemi, ?_, fun hne => congrArg _ (hcame hne), hwhy⟩
    rw [hemi, countP_append, countP_eq_zero_of_any hnone, countP_singleton,
      if_pos (isResponseTo_errorResponse hrequest _ _)]

/-! ### Connections that deliver everything -/

theorem cutBytes_byteLength (text : List Char) : cutBytes text (byteLength text) = (text, false) := by
  induction text with
  | nil => rfl
  | cons c text ih =>
    have hlen : byteLength (c :: text) = c.utf8Size + byteLength text := by simp [byteLength]
    rw [cutBytes, hlen, if_pos (Nat.le_add_right _ _), Nat.add_sub_cancel_left, ih]

/-- A connection that delivers all of some events in one chunk and ends. -/
def Connection.complete (events : List ServerEvent) : Connection := ⟨[render events], false, none, false⟩

theorem Connection.complete_serves (events : List ServerEvent) : (complete events).Serves events := by
  refine ⟨byteLength (render events), ?_⟩
  rw [cutBytes_byteLength]
  simp [complete, Connection.text]

theorem Connection.complete_clean (events : List ServerEvent) : (complete events).Clean parse events := by
  have hcut : (complete events).text = endedLines (events.flatMap ServerEvent.lines ++
      ([] : List SseField).map SseField.line) ++ [] := by
    simp [complete, Connection.text, render]
  obtain ⟨hcnt, -, -⟩ := Connection.cut_eq (by simp) (by simp) hcut
  intro e he
  rw [hcnt] at he
  simp at he

namespace Interrupted

def notification : JsonValue := .obj [("jsonrpc", .str "2.0"), ("method", .str "n")]

def response : JsonValue := .obj [("jsonrpc", .str "2.0"), ("id", .num 1), ("result", .bool true)]

/-- `JSON.parse` of the two texts that are sent. -/
def parseJson (text : String) : Option JsonValue := [notification, response].find? fun m => text.toList = Standard.print m

/-- A notification, and the response with its id sent last. -/
def events : List ServerEvent :=
  [{ fields := [.id ['a'], .data (Standard.print notification)]
     id := ['a']
     id_eq := rfl
     valid := by decide +kernel },
   { fields := [.data (Standard.print response), .id ['b']]
     id := ['b']
     id_eq := rfl
     valid := by decide +kernel }]

/-- A stream that breaks when this much of its text has come. -/
def broken (text : List Char) : Connection := ⟨[text], false, some ⟨"terminated", true⟩, false⟩

/-- The server fails once to answer and then sends the events that are asked for. -/
def script : List Reopening := [.failed ⟨"fetch failed", true⟩, .opened fun id => .complete (replay events id)]

theorem script_serves : ScriptServes parseJson events script := by
  intro stream hstr id
  simp only [script, mem_cons, not_mem_nil, reduceCtorEq, Reopening.opened.injEq, or_false, false_or] at hstr
  subst hstr
  exact ⟨Connection.complete_serves _, Connection.complete_clean _⟩

theorem not_aborted {text : List Char} {used rest : List Reopening} (hused : script = used ++ rest) :
    ¬ Aborted events (broken text) used := by
  have hmem {reopening : Reopening} (h : used.getLast? = some reopening) : reopening ∈ script :=
    hused ▸ mem_append_left _ (mem_of_getLast? h)
  rintro (h | ⟨c, hc, hab⟩)
  · simpa [script] using hmem h
  · unfold lastConnection at hc
    split at hc
    · obtain rfl := Option.some.inj hc
      cases hab
    · next stream hlast =>
      have hstr := hmem hlast
      simp only [script, mem_cons, not_mem_nil, reduceCtorEq, Reopening.opened.injEq, or_false, false_or] at hstr
      obtain ⟨e, -, rfl⟩ := Option.map_eq_some_iff.mp hc
      rw [hstr] at hab
      cases hab
    · cases hc

theorem messages_events : messages parseJson events = [notification, response] := by
  decide +kernel

theorem responseLast_events : ResponseLast (.num 1) (messages parseJson events) := by
  rw [messages_events]
  intro before m after heq hm
  have hfst : isResponseTo (.num 1) notification = false := by decide +kernel
  rcases before with _ | ⟨x, _ | ⟨y, before⟩⟩
  · obtain ⟨rfl, -⟩ := List.cons.inj heq
    rw [hfst] at hm
    cases hm
  · simpa using (List.cons.inj (List.cons.inj heq).2).2.symm
  · simp at heq

-- the linter would evaluate the whole run to look at the names of its variables
set_option linter.constructorNameAsVariable false in
/-- **A stream that breaks after an event** is resumed at the next one. -/
theorem resumed_after_event : ∃ sent, sent <+: messages parseJson events ∧
      consumeResponseStream parseJson (.num 1) 1000 5 (broken (render (events.take 1)))
        script = (sent, .returned) ∧ sent.countP (isResponseTo (.num 1)) = 1 := by
  have hser : (broken (render (events.take 1))).Serves events := ⟨byteLength (render (events.take 1)), by decide +kernel⟩
  have hcle : (broken (render (events.take 1))).Clean parseJson events :=
    fun e _ => .inr (.inr (by decide +kernel))
  have hrun : consumeResponseStream parseJson (.num 1) 1000 5
      (broken (render (events.take 1))) script = ([notification, response], .returned) := by
    decide +kernel
  obtain ⟨used, rest, sent, hused, hsent, hex⟩ := resumed_stream_exact parseJson rfl 1000 5
    (by decide +kernel) responseLast_events ⟨hser, hcle⟩ script_serves
  rw [hrun] at hex ⊢
  obtain ⟨hall, ⟨-, hone⟩ | habort⟩ := hex
  · exact ⟨sent, hsent, by rw [hall], hall ▸ hone⟩
  · exact absurd habort (not_aborted hused)

/-- **A stream that breaks after the id of an event** loses the event. -/
theorem lost_after_id :
    (broken "id: a\n".toList).Serves events ∧ (∀ id, (Connection.complete (replay events id)).Serves (replay events id)) ∧
      messages parseJson events = [notification, response] ∧
      consumeResponseStream parseJson (.num 1) 1000 5 (broken "id: a\n".toList) script = ([response], .returned) := by
  refine ⟨⟨6, ?_⟩, fun id => Connection.complete_serves _, by decide +kernel, by decide +kernel⟩
  decide +kernel

end Interrupted

end EasyPi.Mcp
