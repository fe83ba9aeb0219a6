import UpanLibs.Infra.Logger
import Mathlib.Algebra.BigOperators.Group.List.Basic

/-!
What the lines of a log stand for: a plain line for its message, a line with a repeat count for
that many copies of its message.
-/
namespace Logger

def Line.messages (l : Line) : List Text :=
  match l.repeated with
  | some count => List.replicate count l.msg
  | none => [l.msg]

def State.pending (s : State) : List Text := List.replicate s.logRepeatCount s.prevLogMsg

def State.told (s : State) : List Text := s.written.flatMap Line.messages ++ s.pending

def plainLines (ls : List Line) : Nat := (ls.filter fun l => l.repeated = none).length

def reportedCounts (ls : List Line) : Nat := (ls.filterMap Line.repeated).sum

variable {s : State}

@[simp]
theorem written_rotate (s : State) (reopened : Bool) :
    (s.rotate reopened).written = s.written := by
  rw [State.rotate]
  split <;> rfl

@[simp]
theorem pending_rotate (s : State) (reopened : Bool) :
    (s.rotate reopened).pending = s.pending := by
  rw [State.rotate]
  split <;> rfl

theorem isGood_rotate (good : s.isGood = true) : (s.rotate true).isGood = true := by
  rw [State.rotate]
  split
  · rfl
  · exact good

theorem told_write (good : s.isGood = true) (line : Line) (o : Outside) :
    (s.write line o).told = s.written.flatMap Line.messages ++ line.messages ++ s.pending := by
  rw [State.write, if_pos good, State.told, written_rotate, pending_rotate]
  simp only [State.append, List.flatMap_append, List.flatMap_singleton, State.pending]

theorem isGood_write (good : s.isGood = true) (line : Line) {o : Outside}
    (reopened : o.reopened = true) : (s.write line o).isGood = true := by
  rw [State.write, if_pos good, reopened]
  exact isGood_rotate good

theorem logRepeatCount_write (s : State) (line : Line) (o : Outside) :
    (s.write line o).logRepeatCount = s.logRepeatCount := by
  rw [State.write]
  split
  · rw [State.rotate]
    split <;> rfl
  · split <;> rfl

theorem told_reported (good : s.isGood = true) (count : Nat) (m : Message) :
    (s.reported count m).told
      = s.written.flatMap Line.messages ++ List.replicate count s.prevLogMsg := by
  have good' : ({ s with logRepeatCount := 0 } : State).isGood = true := good
  rw [State.reported, told_write good']
  simp only [Line.messages, State.pending, List.replicate_zero, List.append_nil]

theorem told_stated (good : s.isGood = true) (none_ : s.logRepeatCount = 0) (m : Message) :
    (s.stated m).told = s.told ++ [m.msg] := by
  have good' : ({ s with prevLogMsg := m.msg } : State).isGood = true := good
  rw [State.stated, told_write good', State.told]
  simp only [State.pending, none_, List.replicate_zero, List.append_nil, Line.messages]

theorem isGood_reported (good : s.isGood = true) (count : Nat) {m : Message}
    (first : m.first.reopened = true) : (s.reported count m).isGood = true :=
  isGood_write (s := { s with logRepeatCount := 0 }) good _ first

theorem isGood_stated (good : s.isGood = true) {m : Message} (second : m.second.reopened = true) :
    (s.stated m).isGood = true :=
  isGood_write (s := { s with prevLogMsg := m.msg }) good _ second

theorem told_logged (good : s.isGood = true) (m : Message) (reopens : m.first.reopened = true) :
    (s.logged m).told = s.told ++ [m.msg] := by
  rcases logged_cases s m with ⟨same, counted | reported⟩ | ⟨none_, stated⟩ | both
  · rw [counted, State.told, State.told, State.pending, State.pending, ← same,
      List.replicate_succ', List.append_assoc]
  · rw [reported, told_reported good, State.told, State.pending, ← same, List.replicate_succ',
      List.append_assoc]
  · rw [stated, told_stated good none_]
  · have none_ : (s.reported s.logRepeatCount m).logRepeatCount = 0 := logRepeatCount_write _ _ _
    rw [both, told_stated (isGood_reported good _ reopens) none_, told_reported good, State.told,
      State.pending]

theorem isGood_logged (good : s.isGood = true) (m : Message) (first : m.first.reopened = true)
    (second : m.second.reopened = true) : (s.logged m).isGood = true := by
  rcases logged_cases s m with ⟨_, counted | reported⟩ | ⟨_, stated⟩ | both
  · rw [counted]
    exact good
  · rw [reported]
    exact isGood_reported good _ first
  · rw [stated]
    exact isGood_stated good second
  · rw [both]
    exact isGood_stated (isGood_reported good _ first) second

theorem length_messages (ls : List Line) :
    (ls.flatMap Line.messages).length = plainLines ls + reportedCounts ls := by
  induction ls with
  | nil => rfl
  | cons l ls ih =>
    rw [List.flatMap_cons, List.length_append, ih]
    simp only [plainLines, reportedCounts, Line.messages]
    cases repeated : l.repeated with
    | none =>
      simp [repeated]
      omega
    | some count =>
      simp [repeated]
      omega

theorem told_run (ms : List Message) (good : s.isGood = true)
    (writable : ∀ m ∈ ms, m.first.reopened = true ∧ m.second.reopened = true) :
    (ms.foldl State.logged s).told = s.told ++ ms.map Message.msg := by
  induction ms generalizing s with
  | nil => simp
  | cons m ms ih =>
    have now := writable m List.mem_cons_self
    have later := ih (isGood_logged good m now.1 now.2)
      (fun m member => writable m (List.mem_cons_of_mem _ member))
    rw [List.foldl_cons, later, told_logged good m now.1, List.append_assoc]
    rfl

/-- After any messages the plain lines, the reported counts and the pending count are as many as
    the messages, and the messages they stand for are those that were logged, in that order. -/
theorem log_conserved (fs : Fs) (logCons : Bool) (filePath : Text) (size : Nat) (ms : List Message)
    (writable : ∀ m ∈ ms, m.first.reopened = true ∧ m.second.reopened = true) :
    let s := ms.foldl State.logged ((State.initial fs).restart logCons filePath true size)
    plainLines s.written + reportedCounts s.written + s.logRepeatCount = ms.length
      ∧ s.written.flatMap Line.messages ++ List.replicate s.logRepeatCount s.prevLogMsg
        = ms.map Message.msg := by
  intro s
  have told : s.told = ms.map Message.msg := told_run ms rfl writable
  have size := congrArg List.length told
  rw [State.told, List.length_append, length_messages, State.pending, List.length_replicate,
    List.length_map] at size
  exact ⟨size, told⟩

def twiceAndOnce : List Message :=
  [⟨[97], [], 100, ⟨100, true⟩, ⟨100, true⟩⟩, ⟨[97], [], 100, ⟨100, true⟩, ⟨100, true⟩⟩,
    ⟨[98], [], 101, ⟨101, true⟩, ⟨101, true⟩⟩]

theorem log_conserved_twiceAndOnce :
    let s := twiceAndOnce.foldl State.logged
      ((State.initial fun _ => []).restart true [108, 111, 103] true 0)
    plainLines s.written + reportedCounts s.written + s.logRepeatCount = twiceAndOnce.length
      ∧ s.written.flatMap Line.messages ++ List.replicate s.logRepeatCount s.prevLogMsg
        = twiceAndOnce.map Message.msg :=
  log_conserved (fun _ => []) true [108, 111, 103] 0 twiceAndOnce (by decide)

end Logger
