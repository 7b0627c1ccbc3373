import TaoDag.Framework.Codec

namespace TaoDag.Database

/-- A failed file operation of `append`: how much of the record reached the file. -/
structure AppendFault where
  written : Nat
  message : String

/-- A failed file operation of `replace_all`, before or after the rename. -/
inductive ReplaceFault where
  | beforeRename (message : String)
  | afterRename (message : String)

/-- The append-only block log: the bytes at its path, and whether the open handle still
writes to that path (it does not after a rename whose reopening failed). -/
structure BlockLog where
  file : Bytes
  attached : Bool
  deriving DecidableEq

namespace BlockLog

/-- `open` on a file that holds `file`, or on a new one. -/
def openAt (file : Bytes) : BlockLog := ⟨file, true⟩

/-- Framing of one record: a big-endian `u32` length, then the payload. -/
def frame (payload : Bytes) : Bytes := beBytes 4 payload.length ++ payload

def tooLargeMessage : String := "storage error: block too large for log record"

def write (log : BlockLog) (bytes : Bytes) : BlockLog :=
  if log.attached then { log with file := log.file ++ bytes } else log

def append (log : BlockLog) (io : Option AppendFault) (payload : Bytes) :
    Except String Unit × BlockLog :=
  if payload.length < 2^32 then
    match io with
    | none => (.ok (), log.write (frame payload))
    | some fault => (.error fault.message, log.write ((frame payload).take fault.written))
  else (.error tooLargeMessage, log)

/-- Compaction: a new file takes the place of the log. -/
def replaceAll (log : BlockLog) (io : Option ReplaceFault) (records : List Bytes) :
    Except String Unit × BlockLog :=
  if ∀ r ∈ records, r.length < 2^32 then
    match io with
    | none => (.ok (), ⟨records.flatMap frame, true⟩)
    | some (.beforeRename message) => (.error message, log)
    | some (.afterRename message) => (.error message, ⟨records.flatMap frame, false⟩)
  else (.error tooLargeMessage, log)

def truncatedMessage : String :=
  "storage error: truncated block log record: failed to fill whole buffer"

/-- The loop of `read_all`: a header that is missing or cut short ends the log. -/
def readLoop : Nat → Bytes → Except String (List Bytes)
  | 0, _ => .ok []
  | fuel+1, file =>
      if file.length < 4 then .ok []
      else
        let len := ofBE (file.take 4)
        let rest := file.drop 4
        if rest.length < len then .error truncatedMessage
        else do return rest.take len :: (← readLoop fuel (rest.drop len))

/-- Every record is at least its header long, so the length of the file bounds the loop. -/
def readAll (log : BlockLog) : Except String (List Bytes) :=
  readLoop (log.file.length + 1) log.file

/-- The records of a log file: it is their frames, one after the other. -/
def Holds (log : BlockLog) (records : List Bytes) : Prop :=
  log.file = records.flatMap frame ∧ ∀ r ∈ records, r.length < 2^32

theorem frame_length (r : Bytes) : (frame r).length = r.length + 4 := by
  simp [frame, Nat.add_comm]

private theorem readLoop_frames (records : List Bytes) (fuel : Nat)
    (hfuel : (records.flatMap frame).length < fuel) (hlen : ∀ r ∈ records, r.length < 2^32) :
    readLoop fuel (records.flatMap frame) = .ok records := by
  induction records generalizing fuel with
  | nil =>
    cases fuel with
    | zero => cases hfuel
    | succ fuel => simp [readLoop]
  | cons r records ih =>
    cases fuel with
    | zero => cases hfuel
    | succ fuel =>
      rw [List.flatMap_cons] at hfuel ⊢
      have hr : r.length < 2^32 := hlen r (by simp)
      have h4 : ¬(frame r ++ records.flatMap frame).length < 4 := by
        rw [List.length_append, frame_length]
        omega
      have htake : (frame r ++ records.flatMap frame).take 4 = beBytes 4 r.length := by
        rw [frame, List.append_assoc, List.take_append_of_le_length (by simp)]
        exact List.take_of_length_le (by simp)
      have hdrop : (frame r ++ records.flatMap frame).drop 4 = r ++ records.flatMap frame := by
        rw [frame, List.append_assoc]
        exact List.drop_left' (by simp)
      have hbe : ofBE (beBytes 4 r.length) = r.length := ofBE_beBytes_of_lt (by omega)
      have hshort : ¬(r ++ records.flatMap frame).length < r.length := by
        rw [List.length_append]
        omega
      have htail : ∀ q ∈ records, q.length < 2^32 := fun q hq => hlen q (by simp [hq])
      have hrest : (records.flatMap frame).length < fuel := by
        rw [List.length_append, frame_length] at hfuel
        omega
      rw [readLoop, if_neg h4, htake, hdrop, hbe, if_neg hshort, List.take_left, List.drop_left,
        ih fuel hrest htail]
      rfl

/-- Every record of the file is read back, in order. -/
theorem readAll_of_holds {log : BlockLog} {records : List Bytes} (h : log.Holds records) :
    log.readAll = .ok records := by
  rw [readAll, h.1]
  exact readLoop_frames records _ (by omega) h.2

theorem holds_openAt_nil : (openAt []).Holds [] := ⟨rfl, by simp⟩

/-- An append adds its record, unless it fails. -/
theorem append_cases {log log' : BlockLog} {io : Option AppendFault} {payload : Bytes}
    {r : Except String Unit} (h : log.append io payload = (r, log')) :
    (r = .ok () ∧ payload.length < 2^32 ∧ log' = log.write (frame payload)) ∨
    ∃ e, r = .error e := by
  unfold append at h
  by_cases hp : payload.length < 2^32
  · rw [if_pos hp] at h
    cases io with
    | none =>
      cases h
      exact Or.inl ⟨rfl, hp, rfl⟩
    | some fault =>
      cases h
      exact Or.inr ⟨_, rfl⟩
  · rw [if_neg hp] at h
    cases h
    exact Or.inr ⟨_, rfl⟩

theorem write_ne {log : BlockLog} (ha : log.attached = true) {bytes : Bytes} (hb : bytes ≠ []) :
    log.write bytes ≠ log := by
  intro h
  have hfile : log.file ++ bytes = log.file := by
    have hf := congrArg BlockLog.file h
    rwa [write, if_pos ha] at hf
  have hlen := congrArg List.length hfile
  rw [List.length_append] at hlen
  exact hb (List.length_eq_zero_iff.mp (by omega))

theorem write_attached (log : BlockLog) (bytes : Bytes) :
    (log.write bytes).attached = log.attached := by
  rw [write]
  split <;> rfl

theorem holds_write {log : BlockLog} (ha : log.attached = true) {records : List Bytes}
    (h : log.Holds records) {payload : Bytes} (hp : payload.length < 2^32) :
    (log.write (frame payload)).Holds (records ++ [payload]) := by
  constructor
  · rw [write, if_pos ha]
    simp [h.1]
  · intro r hr
    rcases List.mem_append.mp hr with hr | hr
    · exact h.2 r hr
    · rw [List.mem_singleton.mp hr]
      exact hp

end BlockLog

end TaoDag.Database
