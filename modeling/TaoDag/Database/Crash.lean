import TaoDag.Database.BlockLog

namespace TaoDag.Database

/-- What happens to a block log: a call that returns, a stop of the process within an append,
after which the log is opened again, and a stop between calls. -/
inductive LogEvent where
  | append (io : Option AppendFault) (payload : Bytes)
  | replaceAll (io : Option ReplaceFault) (records : List Bytes)
  | stopInAppend (written : Nat) (payload : Bytes)
  | reopen

namespace BlockLog

/-- The log after an event. -/
def after (log : BlockLog) : LogEvent → BlockLog
  | .append io payload => (log.append io payload).2
  | .replaceAll io records => (log.replaceAll io records).2
  | .stopInAppend written payload => openAt (log.append (some ⟨written, ""⟩) payload).2.file
  | .reopen => openAt log.file

/-- The log after some events, from a new one. -/
def afterAll (events : List LogEvent) : BlockLog := events.foldl after (openAt [])

/-- The records that a log may hold after an event: those of the calls that reported success, and
perhaps the record of an append that did not. -/
inductive Acked (log : BlockLog) : LogEvent → List Bytes → List Bytes → Prop
  | appended {io payload records} (ok : (log.append io payload).1 = .ok ()) :
      Acked log (.append io payload) records (records ++ [payload])
  | failed {io payload records e} (failed : (log.append io payload).1 = .error e) :
      Acked log (.append io payload) records records
  | failedWhole {io payload records e} (failed : (log.append io payload).1 = .error e)
      (small : payload.length < 2^32) :
      Acked log (.append io payload) records (records ++ [payload])
  | replaced {io new records} (ok : (log.replaceAll io new).1 = .ok ()) :
      Acked log (.replaceAll io new) records new
  | notReplaced {io new records e} (failed : (log.replaceAll io new).1 = .error e) :
      Acked log (.replaceAll io new) records records
  | stopped {written payload records} : Acked log (.stopInAppend written payload) records records
  | stoppedWhole {written payload records} (small : payload.length < 2^32) :
      Acked log (.stopInAppend written payload) records (records ++ [payload])
  | reopened {records} : Acked log .reopen records records

/-- The records that a log may hold after some events. -/
inductive AckedAll : List LogEvent → List Bytes → Prop
  | nil : AckedAll [] []
  | snoc {events event records records'} (before : AckedAll events records)
      (step : Acked (afterAll events) event records records') :
      AckedAll (events ++ [event]) records'

/-- A log that is opened after the events can be read, and holds what it may hold. -/
def Recovers (events : List LogEvent) : Prop :=
  ∃ records, (openAt (afterAll events).file).readAll = .ok records ∧ AckedAll events records

/-- An event that leaves no part of a record in the file, and no log behind an old handle. -/
def Whole : LogEvent → Prop
  | .append none _ => True
  | .append (some fault) payload => fault.written = 0 ∨ (frame payload).length ≤ fault.written
  | .replaceAll none _ => True
  | .replaceAll (some (.beforeRename _)) _ => True
  | .replaceAll (some (.afterRename _)) _ => False
  | .stopInAppend written payload => written = 0 ∨ (frame payload).length ≤ written
  | .reopen => True

/-- An append that writes all of its record or nothing of it. -/
theorem append_whole {log : BlockLog} (ha : log.attached = true) {records : List Bytes}
    (h : log.Holds records) {fault : AppendFault} {payload : Bytes}
    (hwhole : fault.written = 0 ∨ (frame payload).length ≤ fault.written) :
    ∃ records', (log.append (some fault) payload).2.Holds records' ∧
      (records' = records ∨ records' = records ++ [payload] ∧ payload.length < 2^32) := by
  rw [append]
  by_cases hsmall : payload.length < 2^32
  · rw [if_pos hsmall]
    rcases hwhole with hzero | hfull
    · refine ⟨records, ?_, Or.inl rfl⟩
      have hfile : log.write ((frame payload).take fault.written) = log := by
        rw [hzero, List.take_zero, write, if_pos ha, List.append_nil]
      change (log.write ((frame payload).take fault.written)).Holds records
      rwa [hfile]
    · refine ⟨records ++ [payload], ?_, Or.inr ⟨rfl, hsmall⟩⟩
      change (log.write ((frame payload).take fault.written)).Holds (records ++ [payload])
      rw [List.take_of_length_le hfull]
      exact holds_write ha h hsmall
  · rw [if_neg hsmall]
    exact ⟨records, h, Or.inl rfl⟩

theorem append_error {log : BlockLog} {fault : AppendFault} {payload : Bytes} :
    ∃ e, (log.append (some fault) payload).1 = .error e := by
  rw [append]
  split
  · exact ⟨_, rfl⟩
  · exact ⟨_, rfl⟩

/-- One event that leaves nothing torn keeps the file a list of whole records. -/
theorem Holds.after {log : BlockLog} (ha : log.attached = true) {records : List Bytes}
    (h : log.Holds records) {event : LogEvent} (hwhole : Whole event) :
    (log.after event).attached = true ∧ ∃ records', (log.after event).Holds records' ∧
      Acked log event records records' := by
  cases event with
  | append io payload =>
    refine ⟨?_, ?_⟩
    · change (log.append io payload).2.attached = true
      unfold append
      split
      · cases io <;> exact (write_attached _ _).trans ha
      · exact ha
    · cases io with
      | none =>
        by_cases hsmall : payload.length < 2^32
        · have happend : log.append none payload = (.ok (), log.write (frame payload)) :=
            if_pos hsmall
          refine ⟨records ++ [payload], ?_, .appended (congrArg Prod.fst happend)⟩
          change (log.append none payload).2.Holds (records ++ [payload])
          rw [happend]
          exact holds_write ha h hsmall
        · have happend : log.append none payload = (.error tooLargeMessage, log) := if_neg hsmall
          refine ⟨records, ?_, .failed (congrArg Prod.fst happend)⟩
          change (log.append none payload).2.Holds records
          rwa [happend]
      | some fault =>
        obtain ⟨e, he⟩ := @append_error log fault payload
        obtain ⟨records', hholds, rfl | ⟨rfl, hsmall⟩⟩ := append_whole ha h hwhole
        · exact ⟨_, hholds, .failed he⟩
        · exact ⟨_, hholds, .failedWhole he hsmall⟩
  | replaceAll io new =>
    change (log.replaceAll io new).2.attached = true ∧ ∃ records',
      (log.replaceAll io new).2.Holds records' ∧ Acked log (.replaceAll io new) records records'
    by_cases hsmall : ∀ r ∈ new, r.length < 2^32
    · cases io with
      | none =>
        have hreplace : log.replaceAll none new = (.ok (), ⟨new.flatMap frame, true⟩) :=
          if_pos hsmall
        refine ⟨?_, new, ?_, .replaced (congrArg Prod.fst hreplace)⟩
        · rw [hreplace]
        · rw [hreplace]
          exact ⟨rfl, hsmall⟩
      | some fault =>
        cases fault with
        | beforeRename message =>
          have hreplace : log.replaceAll (some (.beforeRename message)) new = (.error message, log) :=
            if_pos hsmall
          refine ⟨?_, records, ?_, .notReplaced (congrArg Prod.fst hreplace)⟩
          · rwa [hreplace]
          · rwa [hreplace]
        | afterRename message => exact hwhole.elim
    · have hreplace : log.replaceAll io new = (.error tooLargeMessage, log) := if_neg hsmall
      refine ⟨?_, records, ?_, .notReplaced (congrArg Prod.fst hreplace)⟩
      · rwa [hreplace]
      · rwa [hreplace]
  | stopInAppend written payload =>
    let fault : AppendFault := ⟨written, ""⟩
    have hfault : fault.written = 0 ∨ (frame payload).length ≤ fault.written := hwhole
    obtain ⟨records', hholds, rfl | ⟨rfl, hsmall⟩⟩ := append_whole ha h hfault
    · exact ⟨rfl, _, hholds, .stopped⟩
    · exact ⟨rfl, _, hholds, .stoppedWhole hsmall⟩
  | reopen => exact ⟨rfl, records, h, .reopened⟩

/-- As long as no append is torn, and no replacement fails after its rename, a log that is opened
again holds the records of the calls that reported success. -/
theorem recovers_of_whole (events : List LogEvent) (hwhole : ∀ event ∈ events, Whole event) :
    Recovers events := by
  suffices hinv : (afterAll events).attached = true ∧
      ∃ records, (afterAll events).Holds records ∧ AckedAll events records by
    obtain ⟨_, records, hholds, hacked⟩ := hinv
    have hopened : (openAt (afterAll events).file).Holds records := hholds
    exact ⟨records, readAll_of_holds hopened, hacked⟩
  induction events using List.reverseRecOn with
  | nil => exact ⟨rfl, [], holds_openAt_nil, .nil⟩
  | append_singleton events event ih =>
    rw [List.forall_mem_append] at hwhole
    obtain ⟨ha, records, hholds, hacked⟩ := ih hwhole.1
    obtain ⟨ha', records', hholds', hstep⟩ :=
      hholds.after ha (hwhole.2 event (List.mem_singleton_self event))
    have hafter : afterAll (events ++ [event]) = (afterAll events).after event := by
      rw [afterAll, List.foldl_append]
      rfl
    rw [hafter]
    exact ⟨ha', records', hholds', .snoc hacked hstep⟩

/-- An append whose record is in the file when its flush fails, a replacement that cannot make its
temporary file, and an append after each. -/
theorem recovers_of_whole_faults :
    Recovers [.append none [1], .append (some ⟨6, "flush"⟩) [2, 3], .append none [4],
      .replaceAll (some (.beforeRename "create")) [[5]], .stopInAppend 0 [6], .append none [7]] := by
  apply recovers_of_whole
  intro event hevent
  simp only [List.mem_cons, List.not_mem_nil, or_false] at hevent
  rcases hevent with rfl | rfl | rfl | rfl | rfl | rfl
  · trivial
  · exact Or.inr (by decide)
  · trivial
  · trivial
  · exact Or.inl rfl
  · trivial

/-- A stop in the middle of a record makes the whole log unreadable. -/
theorem torn_append_unreadable :
    (afterAll [.append none [1, 2], .stopInAppend 5 [3, 4]]).readAll = .error truncatedMessage ∧
    ¬Recovers [.append none [1, 2], .stopInAppend 5 [3, 4]] := by
  have hread : (afterAll [.append none [1, 2], .stopInAppend 5 [3, 4]]).readAll =
      .error truncatedMessage := by decide
  refine ⟨hread, ?_⟩
  rintro ⟨records, hrecords, _⟩
  cases hread.symm.trans hrecords

end BlockLog

end TaoDag.Database
