/-
# The persisted log of tool output

Whatever the calls of the accumulator, a log file holds the first bytes of all the data appended,
as many as its budget allows, and the truncation marker behind them if there are more. Before a
file is opened, the buffered chunks are all the data.
-/
import EasyPi.CodingAgent.OutputAccumulator

namespace EasyPi.CodingAgent
namespace OutputAccumulator

open List Truncate

variable {σ : Type*} {s s' : Accumulator σ}

/-- The bytes of `data` that are retained. -/
def retained (maxPersistedBytes : ℕ) (data : Bytes) : ℕ :=
  if maxPersistedBytes = 0 then data.length else min data.length maxPersistedBytes

/-- The log that `data` makes. -/
def logOf (maxPersistedBytes : ℕ) (data : Bytes) : Bytes :=
  data.take (retained maxPersistedBytes data) ++
    if retained maxPersistedBytes data < data.length then outputLogTruncationMarker else []

structure Writes (max : ℕ) (s : Accumulator σ) (file : LogFile) (data : Bytes) : Prop where
  budget : s.maxPersistedBytes = max
  opened : s.file = some file
  written : file.written = logOf max data
  truncated : s.logTruncated = true ↔ retained max data < data.length
  persisted : s.logTruncated = false → s.persistedBytes = data.length

/-- What has been appended is still in the buffer. -/
structure Buffers (max : ℕ) (s : Accumulator σ) (data : Bytes) : Prop where
  budget : s.maxPersistedBytes = max
  unopened : s.file = none
  whole : s.logTruncated = false
  persisted : s.persistedBytes = 0
  chunks : s.rawChunks.flatten = data

/-- What has been appended is in the log, or still in the buffer. -/
def LogInv (max : ℕ) (s : Accumulator σ) (data : Bytes) : Prop :=
  Buffers max s data ∨ s.rawChunks = [] ∧ ∃ file, Writes max s file data

/-- The fields of the log are the same. -/
structure SameLog (s s' : Accumulator σ) : Prop where
  file : s'.file = s.file
  logTruncated : s'.logTruncated = s.logTruncated
  persistedBytes : s'.persistedBytes = s.persistedBytes
  rawChunks : s'.rawChunks = s.rawChunks
  maxPersistedBytes : s'.maxPersistedBytes = s.maxPersistedBytes

namespace SameLog

theorem refl (s : Accumulator σ) : SameLog s s := ⟨rfl, rfl, rfl, rfl, rfl⟩

variable {data : Bytes}

theorem inv (h : SameLog s s') {max : ℕ} (hinv : LogInv max s data) : LogInv max s' data := by
  rcases hinv with hbufs | ⟨hchu, file, hwri⟩
  · exact .inl ⟨h.maxPersistedBytes.trans hbufs.budget, h.file.trans hbufs.unopened,
      h.logTruncated.trans hbufs.whole, h.persistedBytes.trans hbufs.persisted, h.rawChunks.symm ▸ hbufs.chunks⟩
  · refine .inr ⟨h.rawChunks.trans hchu, file, h.maxPersistedBytes.trans hwri.budget,
      h.file.trans hwri.opened, hwri.written, ?_, ?_⟩
    · rw [h.logTruncated]
      exact hwri.truncated
    · rw [h.logTruncated, h.persistedBytes]
      exact hwri.persisted

end SameLog

theorem SameLog.trans {s'' : Accumulator σ} (h : SameLog s s') (h' : SameLog s' s'') : SameLog s s'' :=
  ⟨h'.file.trans h.file, h'.logTruncated.trans h.logTruncated, h'.persistedBytes.trans h.persistedBytes,
    h'.rawChunks.trans h.rawChunks, h'.maxPersistedBytes.trans h.maxPersistedBytes⟩

theorem sameLog_trimTail (s : Accumulator σ) : SameLog s (trimTail s) := by
  unfold trimTail
  dsimp only
  split <;> exact ⟨rfl, rfl, rfl, rfl, rfl⟩

theorem sameLog_appendTail (s : Accumulator σ) (text : Text) : SameLog s (appendTail s text) := by
  unfold appendTail
  dsimp only
  split
  · have h := sameLog_trimTail { s with
      totalDecodedBytes := s.totalDecodedBytes + byteLength text
      tailText := s.tailText ++ text
      tailBytes := s.tailBytes + byteLength text }
    exact ⟨h.file, h.logTruncated, h.persistedBytes, h.rawChunks, h.maxPersistedBytes⟩
  · exact ⟨rfl, rfl, rfl, rfl, rfl⟩

theorem sameLog_countLines (s : Accumulator σ) (text : Text) : SameLog s (countLines s text) := by
  unfold countLines
  dsimp only
  split <;> exact ⟨rfl, rfl, rfl, rfl, rfl⟩

theorem sameLog_appendDecodedText (s : Accumulator σ) (text : Text) : SameLog s (appendDecodedText s text) := by
  unfold appendDecodedText
  split
  · exact .refl s
  · exact .trans ((sameLog_appendTail s text).trans (sameLog_countLines _ text)) ⟨rfl, rfl, rfl, rfl, rfl⟩

/-! ### The log of data -/

section LogOf
variable {max : ℕ} {data : Bytes}

theorem retained_nil : retained max [] = 0 := by
  unfold retained
  split
  · rfl
  · rw [length_nil, Nat.zero_min]

theorem logOf_nil : logOf max [] = [] := by
  rw [logOf, retained_nil, length_nil, if_neg (Nat.lt_irrefl 0)]
  rfl

theorem logOf_of_fits (h : ¬ retained max data < data.length) : logOf max data = data := by
  rw [logOf, if_neg h, append_nil, take_of_length_le (Nat.le_of_not_lt h)]

theorem logOf_append_of_cut (h : retained max data < data.length) (new : Bytes) :
    logOf max (data ++ new) = logOf max data ∧ retained max (data ++ new) < (data ++ new).length := by
  unfold retained at h
  split at h
  · exact absurd h (Nat.lt_irrefl _)
  · rename_i hmax
    have hmin : min data.length max = max := by omega
    have hret : retained max data = max := by rw [retained, if_neg hmax, hmin]
    have hret' : retained max (data ++ new) = max := by
      rw [retained, if_neg hmax, length_append]
      omega
    rw [hmin] at h
    have h' : max < (data ++ new).length := by
      rw [length_append]
      omega
    refine ⟨?_, by rw [hret']; exact h'⟩
    rw [logOf, logOf, hret, hret', if_pos h, if_pos h', take_append_of_le_length (Nat.le_of_lt h)]

theorem logOf_append_of_fits (h : ¬ retained max data < data.length) (new : Bytes) {bytes : ℕ}
    (hbyt : bytes = min new.length (if max = 0 then new.length else max - data.length)) :
    logOf max (data ++ new) = data ++ new.take bytes ++ (if bytes < new.length then outputLogTruncationMarker else []) ∧
      (retained max (data ++ new) < (data ++ new).length ↔ bytes < new.length) := by
  have hret : retained max (data ++ new) = data.length + bytes := by
    unfold retained at h ⊢
    rw [length_append]
    split
    · rename_i hmax
      rw [hbyt, if_pos hmax, Nat.min_self]
    · rename_i hmax
      rw [if_neg hmax] at h hbyt
      omega
  have hiff : retained max (data ++ new) < (data ++ new).length ↔ bytes < new.length := by
    rw [hret, length_append]
    omega
  refine ⟨?_, hiff⟩
  rw [logOf]
  by_cases hcut : bytes < new.length
  · rw [if_pos hcut, if_pos (hiff.mpr hcut), hret, take_length_add_append]
  · rw [if_neg hcut, if_neg (mt hiff.mp hcut), hret, take_length_add_append]

end LogOf

/-- **What is written is the log** of all data so far and the new ones. -/
theorem writes_writePersisted {max : ℕ} {file : LogFile} (h : Writes max s file data)
    (new : Bytes) : (writePersisted s new).rawChunks = s.rawChunks ∧
      ∃ file', Writes max (writePersisted s new) file' (data ++ new) := by
  unfold writePersisted
  rw [h.opened]
  dsimp only
  split
  · rename_i htru
    obtain ⟨hlog, hcut⟩ := logOf_append_of_cut (h.truncated.mp htru) new
    refine ⟨rfl, file, h.budget, h.opened, ?_, iff_of_true htru hcut, fun hnot => ?_⟩
    · rw [hlog]
      exact h.written
    · rw [htru] at hnot
      cases hnot
  · rename_i hopen
    have hper := h.persisted (Bool.eq_false_iff.mpr hopen)
    have hfits := mt h.truncated.mpr hopen
    have hwrit : file.written = data := h.written.trans (logOf_of_fits hfits)
    obtain ⟨hlog, hcut⟩ := logOf_append_of_fits hfits new rfl
    rw [hper, h.budget]
    have hle := Nat.min_le_left new.length (if max = 0 then new.length else max - data.length)
    generalize min new.length (if max = 0 then new.length else max - data.length) = bytes at hle hlog hcut ⊢
    by_cases hpos : bytes > 0
    · simp only [if_pos hpos]
      split
      · rename_i hless
        refine ⟨rfl, _, rfl, rfl, ?_, iff_of_true rfl (hcut.mpr hless), fun h => by cases h⟩
        dsimp only
        rw [hlog, if_pos hless, hwrit]
      · rename_i hall
        refine ⟨rfl, _, rfl, rfl, ?_, iff_of_false hopen (mt hcut.mp hall), fun _ => ?_⟩
        · dsimp only
          rw [hlog, if_neg hall, hwrit, append_nil]
        · dsimp only
          rw [length_append]
          omega
    · obtain rfl : bytes = 0 := Nat.eq_zero_of_not_pos hpos
      simp only [if_neg hpos]
      split
      · rename_i hless
        refine ⟨rfl, { file with written := file.written ++ outputLogTruncationMarker }, h.budget, ?_, ?_,
          iff_of_true rfl (hcut.mpr hless), fun h => by cases h⟩
        · dsimp only
          rw [h.opened, Option.map_some]
        · dsimp only
          rw [hlog, if_pos hless, hwrit, take_zero, append_nil]
      · rename_i hall
        refine ⟨rfl, file, h.budget, h.opened, ?_, iff_of_false hopen (mt hcut.mp hall), fun _ => ?_⟩
        · rw [hlog, if_neg hall, hwrit, take_zero, append_nil, append_nil]
        · rw [hper, length_append]
          omega

theorem writes_foldl (chunks : List Bytes) {max : ℕ} {file : LogFile} (h : Writes max s file data) :
    ∃ file', Writes max (chunks.foldl writePersisted s) file' (data ++ chunks.flatten) := by
  induction chunks generalizing s file data with
  | nil =>
    rw [flatten_nil, append_nil]
    exact ⟨file, h⟩
  | cons chunk chunks ih =>
    obtain ⟨-, file', h'⟩ := writes_writePersisted h chunk
    rw [flatten_cons, ← append_assoc]
    exact ih h'

theorem logInv_ensureTempFile {creation : Option String} {max : ℕ}
    (hinv : LogInv max s data) (h : ensureTempFile s creation = some s') :
    s'.rawChunks = [] ∧ ∃ file, Writes max s' file data := by
  unfold ensureTempFile at h
  rcases hinv with hbufs | ⟨hchu, file, hwri⟩
  · rw [hbufs.unopened] at h
    cases creation with
    | none => cases h
    | some path =>
      cases h
      have hope : Writes max { s with file := some { path := path } } { path := path } [] := by
        refine ⟨hbufs.budget, rfl, logOf_nil.symm, ?_, fun _ => hbufs.persisted⟩
        rw [retained_nil]
        exact iff_of_false (Bool.eq_false_iff.mp hbufs.whole) (Nat.lt_irrefl 0)
      obtain ⟨file', h'⟩ := writes_foldl s.rawChunks hope
      rw [nil_append, hbufs.chunks] at h'
      exact ⟨rfl, file', h'.budget, h'.opened, h'.written, h'.truncated, h'.persisted⟩
  · rw [hwri.opened] at h
    cases h
    exact ⟨hchu, file, hwri⟩

section Steps
variable (decoder : TextDecoder σ) {max : ℕ} {data : Bytes}

section
variable (hinv : LogInv max s data)
include hinv

omit decoder in
theorem logInv_storeRaw (new : Bytes) (creation : Option String) : LogInv max (storeRaw s new creation).1
      (data ++ if (storeRaw s new creation).2 then new else []) := by
  unfold storeRaw
  split
  · cases hope : ensureTempFile s creation with
    | none =>
      dsimp only
      rw [if_neg Bool.false_ne_true, append_nil]
      exact hinv
    | some s' =>
      obtain ⟨hchu, file, hwri⟩ := logInv_ensureTempFile hinv hope
      obtain ⟨hchu', file', hwri'⟩ := writes_writePersisted hwri new
      exact .inr ⟨hchu'.trans hchu, file', hwri'⟩
  · rename_i hbuf
    rw [Bool.or_eq_true, not_or] at hbuf
    obtain hbufs | ⟨-, file, hwri⟩ := hinv
    · split
      · refine .inl ⟨hbufs.budget, hbufs.unopened, hbufs.whole, hbufs.persisted, ?_⟩
        dsimp only
        rw [if_pos rfl, flatten_append, hbufs.chunks, flatten_singleton]
      · rename_i hemp
        rw [if_pos rfl, length_eq_zero_iff.mp (Nat.eq_zero_of_not_pos hemp), append_nil]
        exact .inl hbufs
    · rw [hwri.opened] at hbuf
      exact absurd rfl hbuf.1

theorem logInv_append (new : Bytes) (creation : Option String) :
    LogInv max (append decoder s new creation).1 (data ++ appended decoder s (.append new creation)) := by
  have happ : appended decoder s (.append new creation) = if (append decoder s new creation).2 then new else [] := rfl
  rw [happ]
  unfold append
  split
  · rw [if_neg Bool.false_ne_true, append_nil]
    exact hinv
  · have hdec := sameLog_appendDecodedText
      { s with
        totalRawBytes := s.totalRawBytes + new.length
        decoder := (decoder.decode s.decoder new).1 }
      (Text.ofChars (decoder.decode s.decoder new).2)
    have hsame : SameLog s _ := ⟨hdec.file, hdec.logTruncated, hdec.persistedBytes,
      hdec.rawChunks, hdec.maxPersistedBytes⟩
    exact logInv_storeRaw (hsame.inv hinv) new creation

theorem logInv_finish (creation : Option String) : LogInv max (finish decoder s creation) data := by
  unfold finish
  split
  · exact hinv
  · have hdec := sameLog_appendDecodedText { s with finished := true } (Text.ofChars (decoder.flush s.decoder))
    have hsame : SameLog s _ := ⟨hdec.file, hdec.logTruncated, hdec.persistedBytes,
      hdec.rawChunks, hdec.maxPersistedBytes⟩
    have hinv' := hsame.inv hinv
    dsimp only
    split
    · cases hope : ensureTempFile (appendDecodedText { s with finished := true }
          (Text.ofChars (decoder.flush s.decoder))) creation with
      | none => exact hinv'
      | some s'' => exact .inr (logInv_ensureTempFile hinv' hope)
    · exact hinv'

theorem logInv_snapshot (persistIfTruncated : Bool)
    (creation : Option String) : LogInv max (snapshot s persistIfTruncated creation).1 data := by
  unfold snapshot
  dsimp only
  split
  · exact hinv
  · rename_i s' hope
    dsimp only
    split at hope
    · exact .inr (logInv_ensureTempFile hinv hope)
    · cases hope
      exact hinv

/-- **A call keeps what has been appended**, in the log or in the buffer. -/
theorem logInv_step (call : Call) : LogInv max (step decoder s call) (data ++ appended decoder s call) := by
  cases call with
  | append new creation => exact logInv_append decoder hinv new creation
  | snapshot persistIfTruncated creation =>
    have hnone : appended decoder s (.snapshot persistIfTruncated creation) = [] := rfl
    rw [hnone, append_nil]
    exact logInv_snapshot hinv persistIfTruncated creation
  | finish creation =>
    have hnone : appended decoder s (.finish creation) = [] := rfl
    rw [hnone, append_nil]
    exact logInv_finish decoder hinv creation

theorem logInv_run (calls : List Call) : LogInv max (run decoder s calls) (data ++ allAppended decoder s calls) := by
  induction calls generalizing s data with
  | nil =>
    rw [allAppended, append_nil]
    exact hinv
  | cons call calls ih =>
    rw [allAppended, ← append_assoc]
    exact ih (logInv_step decoder hinv call)

end

end Steps

def OutputAccumulatorOptions.budget (options : OutputAccumulatorOptions) : ℕ :=
  options.maxPersistedBytes.getD defaultMaxPersistedBytes

/-- What the persisted log is for the appended data. -/
structure LogExact (max : ℕ) (s : Accumulator σ) (data : Bytes) : Prop where
  opened : ∀ file, s.file = some file → file.written = data.take (retained max data) ++
        (if retained max data < data.length then outputLogTruncationMarker else []) ∧
      (s.logTruncated = true ↔ retained max data < data.length)
  unopened : s.file = none → s.rawChunks.flatten = data

/-- **The persisted log is an exact prefix** of all appended data, and the marker behind it exactly if
data has been dropped; without a file, all data is in the buffer. -/
theorem persisted_log_exact (decoder : TextDecoder σ) (options : OutputAccumulatorOptions) (calls : List Call) :
    LogExact options.budget (run decoder (new decoder options) calls)
      (allAppended decoder (new decoder options) calls) := by
  have hnew : LogInv options.budget (new decoder options) [] := .inl ⟨rfl, rfl, rfl, rfl, rfl⟩
  have hinv := logInv_run decoder hnew calls
  rw [nil_append] at hinv
  rcases hinv with hbufs | ⟨-, file, hwri⟩
  · refine ⟨fun file hfile => ?_, fun _ => hbufs.chunks⟩
    rw [hbufs.unopened] at hfile
    cases hfile
  · refine ⟨fun file' hfile => ?_, fun hfile => ?_⟩
    · rw [hwri.opened] at hfile
      cases hfile
      exact ⟨hwri.written, hwri.truncated⟩
    · rw [hwri.opened] at hfile
      cases hfile

end OutputAccumulator
end EasyPi.CodingAgent
