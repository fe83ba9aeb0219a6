import UpanLibs.Net.InetGrammar

/-!
The class `logger` with the directory of its file. The times, the stamps, the sizes and whether a
file could be opened come from outside. The lines that were handed to the file, those that went to
the console and the rotations are kept as the history of the run; the messages are those that pass
the mask.
-/
namespace Logger

abbrev Text : Type := List UInt8

def ascii (s : String) : Text := s.toList.map fun c => UInt8.ofNat c.toNat

def LOG_SIZE_ROTATTION_THRESHOLD : Nat := 10 * 1024

/-! Strings and paths. -/

/-- The loop of `string::to_string` with the room that is left; the digits are turned around. -/
def digitLoop : Nat → Nat → Text → Text
  | 0, _, _ => []
  | room + 1, uiNumber, strNumber =>
      let strNumber := UInt8.ofNat (uiNumber % 10 + 0x30) :: strNumber
      if room = 0 then []
      else if uiNumber / 10 = 0 then strNumber
      else digitLoop room (uiNumber / 10) strNumber

def to_string (uiNumber : Nat) : Text := digitLoop 128 uiNumber []

def slash : UInt8 := 0x2F

def dot : UInt8 := 0x2E

def strrchr (ch : UInt8) : Text → Option Nat
  | [] => none
  | c :: rest =>
      match strrchr ch rest with
      | some n => some (n + 1)
      | none => if c = ch then some 0 else none

def dirname (filePath : Text) : Text :=
  match strrchr slash filePath with
  | none => [dot]
  | some dirLength => if dirLength = 0 then [slash] else filePath.take dirLength

def basename (filePath : Text) : Text :=
  match strrchr slash filePath with
  | none => filePath
  | some n => filePath.drop (n + 1)

def toInt (n : Int) : Int := Int.bmod n (2 ^ 32)

def atoi (str : Text) : Int := toInt (Inet.strtol str)

def isDigit (ch : UInt8) : Bool := 0x30 ≤ ch.toNat && ch.toNat ≤ 0x39

def isRotationFile (entryName baseName : Text) : Option Int :=
  if entryName.length ≤ baseName.length ∨ entryName.take baseName.length ≠ baseName
      ∨ entryName[baseName.length]? ≠ some dot then
    none
  else
    let suffix := entryName.drop (baseName.length + 1)
    if suffix = [] then none
    else if suffix.all isDigit then some (atoi suffix)
    else none

/-! Directories, by their names as `dirname` gives them. -/

abbrev Fs : Type := Text → List Text

def rename (fs : Fs) (oldPath newPath : Text) : Fs :=
  if basename oldPath ∈ fs (dirname oldPath) then
    fun dir =>
      let kept := if dir = dirname oldPath then (fs dir).filter (· ≠ basename oldPath) else fs dir
      if dir = dirname newPath then basename newPath :: kept.filter (· ≠ basename newPath) else kept
  else fs

/-- A file that could be opened is in its directory. -/
def open_ (fs : Fs) (path : Text) (good : Bool) : Fs :=
  if good then
    fun dir =>
      if dir = dirname path then
        if basename path ∈ fs dir then fs dir else basename path :: fs dir
      else fs dir
  else fs

def maxRotationSequenceFor (fs : Fs) (filePath : Text) : Int :=
  (fs (dirname filePath)).foldl (fun maxSequence entry =>
    match isRotationFile entry (basename filePath) with
    | some sequence => if sequence > maxSequence then sequence else maxSequence
    | none => maxSequence) 0

/-! The logger. -/

/-- A line of the log: the stamp, the repeat count it reports if it does, and the message. -/
structure Line where
  stamp : Text
  repeated : Option Nat
  msg : Text
  deriving DecidableEq, Repr

def REPEATED_PREFIX : Text := ascii " [REPEATED "

def REPEATED_SUFFIX : Text := ascii " TIMES] "

def Line.text (l : Line) : Text :=
  ascii "\n" ++ l.stamp
    ++ (match l.repeated with
        | some count => REPEATED_PREFIX ++ to_string count ++ REPEATED_SUFFIX
        | none => [])
    ++ l.msg

/-- A rotation: the counter before, the sequence number, the name that was chosen and the
    entries of the directory at that time. -/
structure Rotation where
  last : Int
  sequence : Int
  name : Text
  entries : List Text
  deriving DecidableEq, Repr

structure State where
  prevLogMsg : Text
  logRepeatCount : Nat
  logCons : Bool
  lastLogTime : Int
  logSize : Nat
  maxRotationLogSequence : Int
  logFilePath : Text
  isGood : Bool
  fs : Fs
  written : List Line
  printed : List Line
  rotations : List Rotation

/-- What a `_write` finds outside: the time, and whether the file opens again after a rotation. -/
structure Outside where
  time : Int
  reopened : Bool
  deriving DecidableEq, Repr

namespace State

variable (s : State)

def openFile (filePath : Text) (good : Bool) (size : Nat) : State :=
  let fs := open_ s.fs filePath good
  { s with
    fs
    isGood := good
    logFilePath := filePath
    maxRotationLogSequence := maxRotationSequenceFor fs filePath
    logSize := if good then size else 0 }

/-- A new logger on the file; the old one leaves the directory and the history behind. -/
def restart (logCons : Bool) (filePath : Text) (good : Bool) (size : Nat) : State :=
  openFile
    { s with
      prevLogMsg := []
      logRepeatCount := 0
      logCons
      lastLogTime := 0
      logSize := 0
      maxRotationLogSequence := 0
      isGood := false }
    filePath good size

/-- The counter is an `int`, and its number is printed as one of 64 bits without a sign. -/
def rotate (reopened : Bool) : State :=
  if s.logSize > LOG_SIZE_ROTATTION_THRESHOLD then
    let sequence := toInt (s.maxRotationLogSequence + 1)
    let rotatedFilePath := s.logFilePath ++ [dot] ++ to_string (sequence % 2 ^ 64).toNat
    let fs := rename s.fs s.logFilePath rotatedFilePath
    { s with
      maxRotationLogSequence := sequence
      fs := open_ fs s.logFilePath reopened
      isGood := reopened
      logSize := 0
      rotations := s.rotations ++
        [⟨s.maxRotationLogSequence, sequence, basename rotatedFilePath,
          s.fs (dirname rotatedFilePath)⟩] }
  else s

def append (line : Line) : State :=
  { s with written := s.written ++ [line], logSize := s.logSize + line.text.length }

def write (line : Line) (o : Outside) : State :=
  let s := { s with lastLogTime := o.time }
  if s.isGood then (s.append line).rotate o.reopened
  else if s.logCons then { s with printed := s.printed ++ [line] }
  else s

/-- `_log`, at the time `now`. At most two lines are written. -/
def log (msg stamp : Text) (now : Int) (first second : Outside) : State :=
  if s.prevLogMsg = msg then
    let count := s.logRepeatCount + 1
    if count % 100 = 0 ∨ now - s.lastLogTime ≥ 60 then
      { s with logRepeatCount := 0 }.write ⟨stamp, some count, msg⟩ first
    else { s with logRepeatCount := count }
  else
    let s :=
      if s.logRepeatCount > 0 then
        { s with logRepeatCount := 0 }.write ⟨stamp, some s.logRepeatCount, s.prevLogMsg⟩ first
      else s
    { s with prevLogMsg := msg }.write ⟨stamp, none, msg⟩ second

end State

/-- A message for the logger, with all that the call finds outside. -/
structure Message where
  msg : Text
  stamp : Text
  now : Int
  first : Outside
  second : Outside
  deriving DecidableEq, Repr

def State.logged (s : State) (m : Message) : State := s.log m.msg m.stamp m.now m.first m.second

def State.reported (s : State) (count : Nat) (m : Message) : State :=
  { s with logRepeatCount := 0 }.write ⟨m.stamp, some count, s.prevLogMsg⟩ m.first

def State.stated (s : State) (m : Message) : State :=
  { s with prevLogMsg := m.msg }.write ⟨m.stamp, none, m.msg⟩ m.second

theorem logged_cases (s : State) (m : Message) :
    (s.prevLogMsg = m.msg ∧ (s.logged m = { s with logRepeatCount := s.logRepeatCount + 1 }
        ∨ s.logged m = s.reported (s.logRepeatCount + 1) m))
      ∨ (s.logRepeatCount = 0 ∧ s.logged m = s.stated m)
      ∨ s.logged m = (s.reported s.logRepeatCount m).stated m := by
  rw [State.logged, State.log]
  split
  next same =>
    left
    refine ⟨same, ?_⟩
    rw [State.reported, same]
    simp only
    split
    · exact .inr rfl
    · exact .inl rfl
  next =>
    right
    simp only
    split
    · exact .inr rfl
    · exact .inl ⟨by omega, rfl⟩

def State.initial (fs : Fs) : State := ⟨[], 0, false, 0, 0, 0, [], false, fs, [], [], []⟩

end Logger
