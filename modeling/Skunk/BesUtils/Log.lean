import Skunk.Posix.Path
import Skunk.Text.Lines
import Skunk.Text.Numeral

/-!
# `BESLog`

A record of the log is a line: the time, the instance and the process, the id of the request, the type of
the record and a message, with marks between them. The line is ended if the message is not empty.

So an empty message makes one line of two records, and a newline in a message, or in what is in front of
it, makes two lines of one. And an id with marks in it can look like the type and the message: then
another record has the same line (`exists_same_line`). `run_legible_iff` says that nothing else can go
wrong.
-/

namespace Skunk.BesUtils

open Skunk.Posix Skunk.Text

/-! ## Records -/

def BesLog.mark : Text := "|&|".toList

inductive RecordType
  | request
  | info
  | error
  | verbose
  | timing
  deriving DecidableEq, Repr

namespace RecordType

/-- `REQUEST_LOG_TYPE_KEY` and the others. -/
def key : RecordType → Text
  | request => "request".toList
  | info => "info".toList
  | error => "error".toList
  | verbose => "verbose".toList
  | timing => "timing".toList

def all : List RecordType := [request, info, error, verbose, timing]

theorem mem_all (lrt : RecordType) : lrt ∈ all := by
  cases lrt <;> decide

/-- The type of a record with the marks around it. -/
def field (lrt : RecordType) : Text := BesLog.mark ++ (lrt.key ++ BesLog.mark)

end RecordType

/-! ## The log -/

/-- A `BESLog`, with what has been written to its file. -/
structure BesLog where
  file : Text
  dInstanceId : Text
  pid : Int
  requestId : Text
  dVerbose : Bool
  dUseLocalTime : Bool
  dUseUnixTime : Bool

/-- `std::to_string`. -/
def stdToString (n : Int) : Text := (Numeral.ofInt Nat.one_lt_ofNat n : Numeral 10).text

/-- The calls that the log is for, and those that change what they do. -/
inductive LogCall
  | request (msg : Text)
  | info (msg : Text)
  | error (msg : Text)
  | verbose (msg : Text)
  | timing (msg : Text)
  | setRequestId (id : Text)
  | verboseOn
  | verboseOff

namespace BesLog

def dLogRecordPrologBase (log : BesLog) : Text :=
  mark ++ log.dInstanceId ++ mark ++ stdToString log.pid ++ mark

-- `strftime`, in local time or not
variable (strftime : Bool → Int → Text)

/-- The time at the beginning of a record. -/
def timeText (log : BesLog) (now : Int) : Text :=
  if log.dUseUnixTime then stdToString now else strftime log.dUseLocalTime now

def logRecordBegin (log : BesLog) (now : Int) : Text :=
  log.timeText strftime now ++ (log.dLogRecordPrologBase ++ log.requestId ++ mark)

def logRecord (lrt : RecordType) (msg : Text) (now : Int) (log : BesLog) : BesLog :=
  let file := log.file ++ (log.logRecordBegin strftime now ++ lrt.key ++ mark ++ msg)
  { log with file := if msg ≠ [] ∧ msg.getLast? ≠ some '\n' then file ++ ['\n'] else file }

/-- A call at a time. -/
def step (log : BesLog) : Int × LogCall → BesLog
  | (now, .request msg) => log.logRecord strftime .request msg now
  | (now, .info msg) => log.logRecord strftime .info msg now
  | (now, .error msg) => log.logRecord strftime .error msg now
  | (now, .verbose msg) => if log.dVerbose then log.logRecord strftime .verbose msg now else log
  | (now, .timing msg) => log.logRecord strftime .timing msg now
  | (_, .setRequestId id) => { log with requestId := id }
  | (_, .verboseOn) => { log with dVerbose := true }
  | (_, .verboseOff) => { log with dVerbose := false }

def run (log : BesLog) (calls : List (Int × LogCall)) : BesLog := calls.foldl (step strftime) log

end BesLog

/-! ## What is written -/

structure LogRecord where
  time : Text
  requestId : Text
  lrt : RecordType
  msg : Text

/-- A message without the newline at its end. -/
def dropNewline (msg : Text) : Text := if msg.getLast? = some '\n' then msg.dropLast else msg

@[simp] theorem dropNewline_concat (s : Text) : dropNewline (s ++ ['\n']) = s := by
  simp [dropNewline]

def LogRecord.line (base : Text) (r : LogRecord) : Text :=
  r.time ++ (base ++ (r.requestId ++ (r.lrt.field ++ dropNewline r.msg)))

theorem LogRecord.line_ne_nil (base : Text) (r : LogRecord) : r.line base ≠ [] := by
  simp [line, RecordType.field, BesLog.mark]

/-- It is ended if the message is not empty. -/
def LogRecord.entry (base : Text) (r : LogRecord) : LineEntry Char :=
  ⟨r.line base, !r.msg.isEmpty, r.line_ne_nil base⟩

namespace BesLog

variable (strftime : Bool → Int → Text)

/-- The record of a call, if it makes one. -/
def record (log : BesLog) : Int × LogCall → Option LogRecord
  | (now, .request msg) => some ⟨log.timeText strftime now, log.requestId, .request, msg⟩
  | (now, .info msg) => some ⟨log.timeText strftime now, log.requestId, .info, msg⟩
  | (now, .error msg) => some ⟨log.timeText strftime now, log.requestId, .error, msg⟩
  | (now, .verbose msg) =>
    if log.dVerbose then some ⟨log.timeText strftime now, log.requestId, .verbose, msg⟩ else none
  | (now, .timing msg) => some ⟨log.timeText strftime now, log.requestId, .timing, msg⟩
  | _ => none

def records (log : BesLog) : List (Int × LogCall) → List LogRecord
  | [] => []
  | call :: calls => (log.record strftime call).toList ++ records (log.step strftime call) calls

variable {strftime}

/-- Behind the line there is a newline, the one of the message or another one, unless there is no
message. -/
theorem logRecord_file (log : BesLog) (lrt : RecordType) (msg : Text) (now : Int) :
    (log.logRecord strftime lrt msg now).file = log.file ++
      (LogRecord.entry log.dLogRecordPrologBase
        ⟨log.timeText strftime now, log.requestId, lrt, msg⟩).write '\n' := by
  have hline : ∀ s, log.logRecordBegin strftime now ++ lrt.key ++ mark ++ s =
      log.timeText strftime now ++ (log.dLogRecordPrologBase ++ (log.requestId ++ (lrt.field ++ s))) := by
    intro s
    simp [logRecordBegin, RecordType.field]
  unfold logRecord
  dsimp only
  rw [hline]
  obtain rfl | ⟨front, c, rfl⟩ := msg.eq_nil_or_concat
  · rw [if_neg (by simp)]
    simp [LogRecord.entry, LogRecord.line, dropNewline, LineEntry.write]
  · by_cases hc : c = '\n'
    · -- the newline of the message ends the line
      subst hc
      rw [if_neg (by simp)]
      simp [LogRecord.entry, LogRecord.line, dropNewline, LineEntry.write]
    · rw [if_pos (by simp [hc])]
      simp [LogRecord.entry, LogRecord.line, dropNewline, LineEntry.write, hc]

/-- A call makes a record, or changes nothing that is written or put in front of a record but the id. -/
theorem step_cases (strftime : Bool → Int → Text) (log : BesLog) (call : Int × LogCall) :
    (∃ lrt msg, log.record strftime call = some ⟨log.timeText strftime call.1, log.requestId, lrt, msg⟩ ∧
        log.step strftime call = log.logRecord strftime lrt msg call.1) ∨
      log.record strftime call = none ∧ (log.step strftime call).file = log.file ∧
        (log.step strftime call).dLogRecordPrologBase = log.dLogRecordPrologBase := by
  obtain ⟨now, call⟩ := call
  cases call with
  | request msg => exact .inl ⟨.request, msg, rfl, rfl⟩
  | info msg => exact .inl ⟨.info, msg, rfl, rfl⟩
  | error msg => exact .inl ⟨.error, msg, rfl, rfl⟩
  | verbose msg =>
      rw [record, step]
      split
      · exact .inl ⟨.verbose, msg, rfl, rfl⟩
      · exact .inr ⟨rfl, rfl, rfl⟩
  | timing msg => exact .inl ⟨.timing, msg, rfl, rfl⟩
  | setRequestId id => exact .inr ⟨rfl, rfl, rfl⟩
  | verboseOn => exact .inr ⟨rfl, rfl, rfl⟩
  | verboseOff => exact .inr ⟨rfl, rfl, rfl⟩

theorem step_base (log : BesLog) (call : Int × LogCall) :
    (log.step strftime call).dLogRecordPrologBase = log.dLogRecordPrologBase := by
  rcases step_cases strftime log call with ⟨lrt, msg, -, hstep⟩ | ⟨-, -, hbase⟩
  · rw [hstep]
    rfl
  · exact hbase

theorem step_file (log : BesLog) (call : Int × LogCall) :
    (log.step strftime call).file = log.file ++ (log.record strftime call).toList.flatMap
      fun r => (r.entry log.dLogRecordPrologBase).write '\n' := by
  rcases step_cases strftime log call with ⟨lrt, msg, hrecord, hstep⟩ | ⟨hnone, hfile, -⟩
  · rw [hstep, hrecord, logRecord_file]
    simp
  · rw [hfile, hnone]
    simp

/-- The file is what the records are written as, one after the other. -/
theorem run_file (log : BesLog) (calls : List (Int × LogCall)) :
    (log.run strftime calls).file = log.file ++ (log.records strftime calls).flatMap
      fun r => (r.entry log.dLogRecordPrologBase).write '\n' := by
  induction calls generalizing log with
  | nil => simp [run, records]
  | cons call calls ih =>
      have hrest := ih (log.step strftime call)
      rw [step_base, step_file] at hrest
      show ((log.step strftime call).run strftime calls).file = _
      rw [hrest, records, List.flatMap_append, List.append_assoc]

end BesLog

/-! ## What is read -/

/-- The type of a record and the message behind it. -/
def fieldAt (s : Text) : Option (RecordType × Text) :=
  (RecordType.all.find? fun lrt => lrt.field.isPrefixOf s).map fun lrt => (lrt, s.drop lrt.field.length)

/-- The first type there is, and the message behind it. -/
def firstField : Text → Option (RecordType × Text)
  | [] => none
  | c :: cs =>
    match fieldAt (c :: cs) with
    | some field => some field
    | none => firstField cs

/-- The type and the message of a record, read off its line: they come behind the time, the instance and
the process, and the id of the request. -/
def readRecord (base line : Text) : Option (RecordType × Text) :=
  firstField ((line.dropWhile (· ≠ '|')).drop base.length)

/-- With a mark behind it the id does not look as if there were a type in it. -/
def NoField (requestId : Text) : Prop := ∀ lrt : RecordType, ¬ lrt.field <:+: requestId ++ BesLog.mark

namespace RecordType

theorem field_length (lrt : RecordType) : 3 < lrt.field.length := by
  cases lrt <;> decide

/-- No field begins another one. -/
theorem field_inj {lrt lrt' : RecordType} {s : Text} (h : lrt.field <+: lrt'.field ++ s) : lrt = lrt' := by
  have hall : ∀ lrt lrt' : RecordType, lrt.field.isPrefixOf lrt'.field = true → lrt = lrt' := by
    intro lrt lrt'
    cases lrt <;> cases lrt' <;> decide
  rcases List.prefix_or_prefix_of_prefix h (List.prefix_append _ s) with hfits | hfits
  · exact hall _ _ (List.isPrefixOf_iff_prefix.mpr hfits)
  · exact (hall _ _ (List.isPrefixOf_iff_prefix.mpr hfits)).symm

/-- There are marks at the ends of a field only. -/
theorem mark_in_field {lrt : RecordType} {front rest : Text}
    (h : lrt.field = front ++ (BesLog.mark ++ rest)) : front = [] ∨ rest = [] := by
  have hall : ∀ p < lrt.field.length, BesLog.mark.isPrefixOf (lrt.field.drop p) = true →
      p = 0 ∨ p + 3 = lrt.field.length := by
    cases lrt <;> decide
  have hlength := congrArg List.length h
  have hthree : BesLog.mark.length = 3 := rfl
  simp only [List.length_append, hthree] at hlength
  have hprefix : BesLog.mark.isPrefixOf (lrt.field.drop front.length) = true := by
    rw [h, List.drop_left, List.isPrefixOf_iff_prefix]
    exact List.prefix_append _ _
  rcases hall front.length (by omega) hprefix with hfront | hrest
  · exact .inl (List.length_eq_zero_iff.mp hfront)
  · right
    apply List.length_eq_zero_iff.mp
    omega

/-- A field that begins in front of a mark ends there at the latest. -/
theorem field_prefix {lrt : RecordType} {front rest : Text} (hfront : front ≠ [])
    (h : lrt.field <+: front ++ (BesLog.mark ++ rest)) : lrt.field <+: front ++ BesLog.mark := by
  rw [← List.append_assoc] at h
  rcases List.prefix_or_prefix_of_prefix h (List.prefix_append _ rest) with hshort | ⟨behind, hlong⟩
  · exact hshort
  · rw [List.append_assoc] at hlong
    obtain rfl := (mark_in_field hlong.symm).resolve_left hfront
    rw [← hlong, List.append_nil]

end RecordType

theorem fieldAt_eq_some_iff {s msg : Text} {lrt : RecordType} :
    fieldAt s = some (lrt, msg) ↔ s = lrt.field ++ msg := by
  unfold fieldAt
  rw [Option.map_eq_some_iff]
  constructor
  · rintro ⟨lrt', hfind, heq⟩
    obtain ⟨rfl, rfl⟩ := Prod.mk.inj heq
    have hfits := List.find?_some hfind
    obtain ⟨msg, rfl⟩ := List.isPrefixOf_iff_prefix.mp hfits
    rw [List.drop_left]
  · rintro rfl
    cases hfind : RecordType.all.find? fun lrt' => lrt'.field.isPrefixOf (lrt.field ++ msg) with
    | none =>
        rw [List.find?_eq_none] at hfind
        exact absurd (List.isPrefixOf_iff_prefix.mpr (List.prefix_append _ _)) (hfind lrt lrt.mem_all)
    | some lrt' =>
        have hfits := List.find?_some hfind
        obtain rfl := RecordType.field_inj (List.isPrefixOf_iff_prefix.mp hfits)
        exact ⟨lrt', rfl, by rw [List.drop_left]⟩

theorem firstField_field (lrt : RecordType) (msg : Text) :
    firstField (lrt.field ++ msg) = some (lrt, msg) := by
  have hfield : fieldAt (lrt.field ++ msg) = some (lrt, msg) := fieldAt_eq_some_iff.mpr rfl
  cases hs : lrt.field ++ msg with
  | nil =>
      have hlength := congrArg List.length hs
      have hlong := lrt.field_length
      simp only [List.length_append, List.length_nil] at hlength
      omega
  | cons c cs =>
      rw [hs] at hfield
      rw [firstField, hfield]

/-- Behind an id that does not look so the type and the message are found. -/
theorem firstField_append {requestId : Text} (h : NoField requestId) (lrt : RecordType) (msg : Text) :
    firstField (requestId ++ (lrt.field ++ msg)) = some (lrt, msg) := by
  induction requestId with
  | nil => exact firstField_field lrt msg
  | cons c cs ih =>
      have hcs : NoField cs := fun lrt' hinfix => h lrt' (List.infix_cons_iff.mpr (.inr hinfix))
      have hnone : fieldAt (c :: (cs ++ (lrt.field ++ msg))) = none := by
        rw [Option.eq_none_iff_forall_ne_some]
        rintro ⟨lrt', msg'⟩ hfield
        -- a field from here would end at the mark behind the id, which `NoField` excludes
        have heq := fieldAt_eq_some_iff.mp hfield
        have hfits : lrt'.field <+: (c :: cs) ++ (BesLog.mark ++ (lrt.key ++ BesLog.mark ++ msg)) := by
          rw [← List.append_assoc BesLog.mark]
          exact ⟨msg', heq.symm⟩
        exact h lrt' (RecordType.field_prefix (List.cons_ne_nil c cs) hfits).isInfix
      rw [List.cons_append, firstField, hnone]
      exact ih hcs

/-- What is found is not behind any other field. -/
theorem exists_firstField (front : Text) (lrt : RecordType) (rest : Text) :
    ∃ lrt' msg, firstField (front ++ (lrt.field ++ rest)) = some (lrt', msg) ∧
      rest.length ≤ msg.length := by
  induction front with
  | nil => exact ⟨lrt, rest, firstField_field lrt rest, le_rfl⟩
  | cons c cs ih =>
      rw [List.cons_append, firstField]
      cases hfield : fieldAt (c :: (cs ++ (lrt.field ++ rest))) with
      | none => exact ih
      | some field =>
          obtain ⟨lrt', msg⟩ := field
          -- this one ends with the first mark of the other one, so there is more behind it
          have heq := fieldAt_eq_some_iff.mp hfield
          have hfits : lrt'.field <+: (c :: cs) ++ (BesLog.mark ++ (lrt.key ++ BesLog.mark ++ rest)) := by
            rw [← List.append_assoc BesLog.mark]
            exact ⟨msg, heq.symm⟩
          have hshort := (RecordType.field_prefix (List.cons_ne_nil c cs) hfits).length_le
          have hthree : BesLog.mark.length = 3 := rfl
          have hlong := lrt.field_length
          have hlength := congrArg List.length heq
          simp only [List.length_append, List.length_cons, hthree] at hshort hlength
          exact ⟨lrt', msg, rfl, by omega⟩

/-- If the id looks as if there were a type in it, this one stands in front of the type of the record. -/
theorem append_field_eq {requestId front rest : Text} {lrt' : RecordType}
    (h : front ++ lrt'.field ++ rest = requestId ++ BesLog.mark) (lrt : RecordType) (msg : Text) :
    requestId ++ (lrt.field ++ msg) =
      front ++ (lrt'.field ++ (rest ++ (lrt.key ++ (BesLog.mark ++ msg)))) := by
  rw [← List.append_assoc lrt'.field, ← List.append_assoc front, ← List.append_assoc front, h]
  simp [RecordType.field]

theorem firstField_iff (requestId : Text) (lrt : RecordType) (msg : Text) :
    firstField (requestId ++ (lrt.field ++ msg)) = some (lrt, msg) ↔ NoField requestId := by
  constructor
  · rintro hread lrt' ⟨front, rest, heq⟩
    -- the message behind the first field is longer
    obtain ⟨lrt'', msg', hfirst, hlong⟩ :=
      exists_firstField front lrt' (rest ++ (lrt.key ++ (BesLog.mark ++ msg)))
    rw [append_field_eq heq, hfirst] at hread
    cases hread
    have hthree : BesLog.mark.length = 3 := rfl
    simp only [List.length_append, hthree] at hlong
    omega
  · intro h
    exact firstField_append h lrt msg

/-- The type and the message of a record are read off its line exactly if the id does not look as if they
were in it. -/
theorem readRecord_line_iff {base : Text} (hbase : base.head? = some '|') {r : LogRecord}
    (htime : '|' ∉ r.time) :
    readRecord base (r.line base) = some (r.lrt, dropNewline r.msg) ↔ NoField r.requestId := by
  obtain ⟨cs, rfl⟩ := List.head?_eq_some_iff.mp hbase
  have htimes : ∀ c ∈ r.time, decide (c ≠ '|') = true := by
    intro c hc
    simpa using ne_of_mem_of_not_mem hc htime
  have hbehind : (r.line ('|' :: cs)).dropWhile (· ≠ '|') =
      '|' :: cs ++ (r.requestId ++ (r.lrt.field ++ dropNewline r.msg)) := by
    rw [LogRecord.line, List.dropWhile_append_of_pos htimes]
    rfl
  rw [readRecord, hbehind, List.drop_left, firstField_iff]

/-- If the id looks so, the line is that of another record too. -/
theorem exists_same_line {r : LogRecord} (h : ¬ NoField r.requestId) (base : Text) :
    ∃ r' : LogRecord, r'.line base = r.line base ∧ dropNewline r'.msg ≠ dropNewline r.msg := by
  simp only [NoField, not_forall, not_not] at h
  obtain ⟨lrt, front, rest, heq⟩ := h
  refine ⟨⟨r.time, front, lrt, rest ++ (r.lrt.key ++ (BesLog.mark ++ dropNewline r.msg)) ++ ['\n']⟩, ?_, ?_⟩
  · rw [LogRecord.line, LogRecord.line, dropNewline_concat, append_field_eq heq]
  · intro hmsg
    rw [dropNewline_concat] at hmsg
    have hlength := congrArg List.length hmsg
    have hthree : BesLog.mark.length = 3 := rfl
    simp only [List.length_append, hthree] at hlength
    omega

/-- Nothing in a record can be taken for something else. -/
structure LogRecord.Plain (instanceId : Text) (r : LogRecord) : Prop where
  instanceId : '\n' ∉ instanceId
  requestId : '\n' ∉ r.requestId
  msg : '\n' ∉ dropNewline r.msg
  noField : NoField r.requestId

/-- A record is a line, and can be read off it. -/
structure Legible (base : Text) (rs : List LogRecord) (file : Text) : Prop where
  lines : lines '\n' file = rs.map (LogRecord.line base)
  read : ∀ r ∈ rs, readRecord base (r.line base) = some (r.lrt, dropNewline r.msg)

theorem notMem_stdToString {c : Char} (hc : c ∉ '+' :: '-' :: digitChars) (n : Int) : c ∉ stdToString n :=
  fun hmem => hc (Numeral.mem_text _ (by decide) hmem)

namespace BesLog

variable {strftime : Bool → Int → Text}

theorem base_head? (log : BesLog) : log.dLogRecordPrologBase.head? = some '|' := rfl

theorem newline_notMem_base_iff (log : BesLog) :
    '\n' ∉ log.dLogRecordPrologBase ↔ '\n' ∉ log.dInstanceId := by
  have hpid := notMem_stdToString (c := '\n') (by decide) log.pid
  simp [dLogRecordPrologBase, mark, hpid]

/-- The times come from the clock. -/
theorem exists_of_mem_records {log : BesLog} {calls : List (Int × LogCall)} {r : LogRecord}
    (h : r ∈ log.records strftime calls) :
    ∃ (log' : BesLog) (now : Int), r.time = log'.timeText strftime now := by
  induction calls generalizing log with
  | nil => cases h
  | cons call calls ih =>
      rw [records, List.mem_append] at h
      rcases h with h | h
      · rcases step_cases strftime log call with ⟨lrt, msg, hrecord, -⟩ | ⟨hnone, -, -⟩
        · rw [hrecord, Option.toList_some, List.mem_singleton] at h
          exact ⟨log, call.1, by rw [h]⟩
        · rw [hnone] at h
          cases h
      · exact ih h

theorem notMem_time (hclock : ∀ localTime now, '\n' ∉ strftime localTime now ∧ '|' ∉ strftime localTime now)
    {log : BesLog} {calls : List (Int × LogCall)} {r : LogRecord} (h : r ∈ log.records strftime calls) :
    '\n' ∉ r.time ∧ '|' ∉ r.time := by
  obtain ⟨log', now, htime⟩ := exists_of_mem_records h
  rw [htime, timeText]
  split
  · exact ⟨notMem_stdToString (by decide) now, notMem_stdToString (by decide) now⟩
  · exact hclock _ _

theorem newline_notMem_line_iff {log : BesLog} {r : LogRecord} (htime : '\n' ∉ r.time) :
    '\n' ∉ r.line log.dLogRecordPrologBase ↔
      '\n' ∉ log.dInstanceId ∧ '\n' ∉ r.requestId ∧ '\n' ∉ dropNewline r.msg := by
  have hfield : '\n' ∉ r.lrt.field := by
    cases r.lrt <;> decide
  rw [← newline_notMem_base_iff]
  simp [LogRecord.line, htime, hfield]

/-- In what is added to the file each call has its line, and from this its type and message can be read,
exactly if no message but the last is empty and nothing in a record can be taken for something else. -/
theorem run_legible_iff
    (hclock : ∀ localTime now, '\n' ∉ strftime localTime now ∧ '|' ∉ strftime localTime now)
    (log : BesLog) (calls : List (Int × LogCall)) :
    Legible log.dLogRecordPrologBase (log.records strftime calls)
        ((log.run strftime calls).file.drop log.file.length) ↔
      (∀ r ∈ log.records strftime calls, r.Plain log.dInstanceId) ∧
        ∀ r ∈ (log.records strftime calls).dropLast, r.msg ≠ [] := by
  have hlines : lines '\n' ((log.run strftime calls).file.drop log.file.length) =
      (log.records strftime calls).map (LogRecord.line log.dLogRecordPrologBase) ↔
        (∀ r ∈ log.records strftime calls, '\n' ∉ r.line log.dLogRecordPrologBase) ∧
          ∀ r ∈ (log.records strftime calls).dropLast, r.msg ≠ [] := by
    have hwritten := @lines_write_iff Char '\n' _
      ((log.records strftime calls).map (LogRecord.entry log.dLogRecordPrologBase))
    rw [List.flatMap_map, List.map_map, ← List.map_dropLast, List.forall_mem_map,
      List.forall_mem_map] at hwritten
    have hline : LineEntry.line ∘ LogRecord.entry log.dLogRecordPrologBase =
        LogRecord.line log.dLogRecordPrologBase := rfl
    rw [run_file, List.drop_left, ← hline, hwritten]
    simp [LogRecord.entry]
  constructor
  · rintro ⟨hlegible, hread⟩
    obtain ⟨hfree, hended⟩ := hlines.mp hlegible
    refine ⟨?_, hended⟩
    intro r hr
    obtain ⟨hnewline, hbar⟩ := notMem_time hclock hr
    obtain ⟨hinstance, hid, hmsg⟩ := (newline_notMem_line_iff hnewline).mp (hfree r hr)
    exact ⟨hinstance, hid, hmsg, (readRecord_line_iff log.base_head? hbar).mp (hread r hr)⟩
  · rintro ⟨hplain, hended⟩
    constructor
    · apply hlines.mpr
      refine ⟨?_, hended⟩
      intro r hr
      have h := hplain r hr
      exact (newline_notMem_line_iff (notMem_time hclock hr).1).mpr ⟨h.instanceId, h.requestId, h.msg⟩
    · intro r hr
      exact (readRecord_line_iff log.base_head? (notMem_time hclock hr).2).mpr (hplain r hr).noField

end BesLog

def emptyLog : BesLog where
  file := []
  dInstanceId := ['-']
  pid := 7
  requestId := "id".toList
  dVerbose := false
  dUseLocalTime := false
  dUseUnixTime := false

/-- A date. -/
def someTime (_ : Bool) (_ : Int) : Text := "1970-01-01T00:00:00 GMT".toList

theorem notMem_someTime (localTime : Bool) (now : Int) :
    '\n' ∉ someTime localTime now ∧ '|' ∉ someTime localTime now := by
  unfold someTime
  decide

/-- A message with a newline at its end, and an empty one at the end of the log. -/
theorem run_legible_iff_two :
    Legible emptyLog.dLogRecordPrologBase
        (emptyLog.records someTime [(0, .info "a\n".toList), (0, .timing [])])
        ((emptyLog.run someTime [(0, .info "a\n".toList), (0, .timing [])]).file.drop
          emptyLog.file.length) ↔
      (∀ r ∈ emptyLog.records someTime [(0, .info "a\n".toList), (0, .timing [])],
          r.Plain emptyLog.dInstanceId) ∧
        ∀ r ∈ (emptyLog.records someTime [(0, .info "a\n".toList), (0, .timing [])]).dropLast, r.msg ≠ [] :=
  BesLog.run_legible_iff notMem_someTime _ _

/-- A message of two lines makes two lines of one record. -/
theorem run_twoLines :
    ¬ ∀ (strftime : Bool → Int → Text),
      (∀ localTime now, '\n' ∉ strftime localTime now ∧ '|' ∉ strftime localTime now) →
        ∀ (log : BesLog) (calls : List (Int × LogCall)),
          Legible log.dLogRecordPrologBase (log.records strftime calls)
            ((log.run strftime calls).file.drop log.file.length) := by
  intro hall
  have hlegible := hall someTime notMem_someTime emptyLog
    [(0, .info "a\nb".toList)]
  have hlength := congrArg List.length hlegible.lines
  exact absurd hlength (by decide)

end Skunk.BesUtils
