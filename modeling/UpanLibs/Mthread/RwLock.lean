import UpanLibs.Transition

/-!
The monitor of `rwlock`. Every call runs under the mutex `_m` from its entry to
its return or to the wait on `_cv`, so one section of a call is one step; inside
a section the statements are kept apart, each with the notification it sends.
Waking up needs no notification here (spurious wake-ups), and a wait may end by
an exception. Lock counters are unbounded integers.
-/
namespace RwLock

def noActiveWriter : Int := -1

/-- Thread ids as `getpid` returns them; `NO_ACTIVE_WRITER` is none of them. -/
@[ext] structure Pid where
  val : Int
  valid : val ≠ noActiveWriter
  deriving DecidableEq, Repr

structure Lock where
  readers : List (Pid × Int)
  rwQueue : List Pid
  activeWriter : Int
  activeWriterLockCount : Int
  deriving DecidableEq, Repr

def Lock.initial : Lock := ⟨[], [], noActiveWriter, 0⟩

inductive Op where
  | read
  | write
  deriving DecidableEq, Repr

/-- `++_readers[pid]`: the entry is created with count zero when it is absent. -/
def countReader (p : Pid) : List (Pid × Int) → List (Pid × Int)
  | [] => [(p, 1)]
  | (q, n) :: rest => if q = p then (q, n + 1) :: rest else (q, n) :: countReader p rest

/-- `--(i->second)` on the entry of `p`. -/
def uncountReader (p : Pid) : List (Pid × Int) → List (Pid × Int)
  | [] => []
  | (q, n) :: rest => if q = p then (q, n - 1) :: rest else (q, n) :: uncountReader p rest

def eraseReader (p : Pid) (rs : List (Pid × Int)) : List (Pid × Int) :=
  rs.filter (fun e => e.1 ≠ p)

def Lock.enqueue (p : Pid) (l : Lock) : Lock :=
  if p ∈ l.rwQueue then l else { l with rwQueue := l.rwQueue ++ [p] }

def Lock.dequeue (p : Pid) (l : Lock) : Lock := { l with rwQueue := l.rwQueue.erase p }

def readCondition (p : Pid) (l : Lock) : Bool :=
  if l.activeWriter = noActiveWriter ∨ l.activeWriter = p.val then
    let recursiveReader := match l.readers.lookup p with
      | some n => decide (0 < n)
      | none => false
    l.rwQueue.isEmpty || l.rwQueue.head? == some p || recursiveReader || l.activeWriter == p.val
  else false

def writeCondition (p : Pid) (l : Lock) : Bool :=
  if l.activeWriter = p.val ∨ (l.activeWriter = noActiveWriter ∧ l.readers.isEmpty) then
    l.rwQueue.isEmpty || l.rwQueue.head? == some p || l.activeWriter == p.val
  else false

def waitCondition : Op → Pid → Lock → Bool
  | .read => readCondition
  | .write => writeCondition

/-- One statement of a section: the change it makes to the lock, and whether it
    ends in `notify_all`, tested on the lock it leaves. -/
structure Stmt where
  update : Lock → Lock
  notifyAll : Lock → Bool

def assign (f : Lock → Lock) : Stmt := ⟨f, fun _ => false⟩

def notifyWhen (c : Lock → Bool) : Stmt := ⟨id, c⟩

def readGranted (p : Pid) : List Stmt :=
  [assign (Lock.dequeue p),
   assign (fun l => { l with readers := countReader p l.readers }),
   notifyWhen (fun l => !l.rwQueue.isEmpty)]

def writeGranted (p : Pid) : List Stmt :=
  [assign (Lock.dequeue p),
   assign (fun l => { l with activeWriter := p.val }),
   assign (fun l => { l with activeWriterLockCount := l.activeWriterLockCount + 1 })]

def granted : Op → Pid → List Stmt
  | .read => readGranted
  | .write => writeGranted

/-- The `catch (...)` branch that both lock calls share. -/
def waitFailed (p : Pid) : List Stmt :=
  [assign (Lock.dequeue p), notifyWhen (fun _ => true)]

def readUnlock (p : Pid) (l : Lock) : List Stmt :=
  match l.readers.lookup p with
  | none => []
  | some _ =>
    [assign (fun l => { l with readers := uncountReader p l.readers }),
     assign (fun l => if l.readers.lookup p = some 0 then
       { l with readers := eraseReader p l.readers } else l),
     notifyWhen (fun l => l.readers.isEmpty && l.activeWriter == noActiveWriter)]

def writeUnlock (p : Pid) (l : Lock) : List Stmt :=
  if l.activeWriter ≠ p.val then []
  else
    [assign (fun l => { l with activeWriterLockCount := l.activeWriterLockCount - 1 }),
     assign (fun l => if l.activeWriterLockCount = 0 then
       { l with activeWriter := noActiveWriter } else l),
     notifyWhen (fun l => l.activeWriterLockCount == 0)]

def unlock : Op → Pid → Lock → List Stmt
  | .read => readUnlock
  | .write => writeUnlock

inductive Status where
  | idle
  | blocked (op : Op)
  deriving DecidableEq, Repr

/-- The lock, where each thread is, and the history the properties speak about:
    `notified p` says that `p` was notified since its condition last became true,
    `heldRead` and `heldWrite` count the outstanding locks, `ticket` numbers the
    arrivals in the queue and `grantLog` lists the tickets of first grants. -/
structure State where
  lock : Lock
  status : Pid → Status
  notified : Pid → Bool
  heldRead : Pid → Nat
  heldWrite : Pid → Nat
  ticket : Pid → Nat
  nextTicket : Nat
  grantLog : List Nat

def State.initial : State :=
  ⟨Lock.initial, fun _ => .idle, fun _ => false, fun _ => 0, fun _ => 0, fun _ => 0, 0, []⟩

def noteNotified (before after : Lock) (all : Bool) (old : Bool) (p : Pid) : Status → Bool
  | .idle => old
  | .blocked op =>
    if all then true
    else if waitCondition op p after && !waitCondition op p before then false
    else old

def execStmt (s : State) (st : Stmt) : State :=
  { s with
    lock := st.update s.lock
    notified := fun p => noteNotified s.lock (st.update s.lock)
      (st.notifyAll (st.update s.lock)) (s.notified p) p (s.status p) }

def exec (stmts : List Stmt) (s : State) : State := stmts.foldl execStmt s

def setStatus (p : Pid) (st : Status) (s : State) : State :=
  { s with status := fun q => if q = p then st else s.status q }

/-- The `find` and `push_back` at the start of a lock call. -/
def arrive (p : Pid) (s : State) : State :=
  if p ∈ s.lock.rwQueue then s
  else
    { execStmt s (assign (Lock.enqueue p)) with
      ticket := fun q => if q = p then s.nextTicket else s.ticket q
      nextTicket := s.nextTicket + 1 }

def held : Op → State → Pid → Nat
  | .read => State.heldRead
  | .write => State.heldWrite

def setHeld (op : Op) (p : Pid) (n : Nat) (s : State) : State :=
  match op with
  | .read => { s with heldRead := fun q => if q = p then n else s.heldRead q }
  | .write => { s with heldWrite := fun q => if q = p then n else s.heldWrite q }

/-- The thread holds neither a read nor a write lock. -/
def HoldsNothing (s : State) (p : Pid) : Prop := s.heldRead p = 0 ∧ s.heldWrite p = 0

instance (s : State) (p : Pid) : Decidable (HoldsNothing s p) :=
  inferInstanceAs (Decidable (_ ∧ _))

def grant (op : Op) (p : Pid) (s : State) : State :=
  let log := if HoldsNothing s p then s.grantLog ++ [s.ticket p] else s.grantLog
  { setHeld op p (held op s p + 1) (exec (granted op p) (setStatus p .idle s)) with
    grantLog := log }

/-- `while (!condition()) wait(m)`, up to the return or to the next wait. -/
def tryAcquire (op : Op) (p : Pid) (s : State) : State :=
  if waitCondition op p s.lock then grant op p s
  else { setStatus p (.blocked op) s with
    notified := fun q => if q = p then false else s.notified q }

inductive Action where
  | call (op : Op) (p : Pid)
  | wake (p : Pid)
  | interrupt (p : Pid)
  | unlock (op : Op) (p : Pid)
  deriving DecidableEq, Repr

/-- One section of the monitor. A thread calls in only when it is in no other
    call. An unlock of what the thread does not hold changes nothing. -/
def step (s : State) : Action → Option State
  | .call op p => if s.status p = .idle then some (tryAcquire op p (arrive p s)) else none
  | .wake p => match s.status p with
    | .blocked op => some (tryAcquire op p s)
    | .idle => none
  | .interrupt p => match s.status p with
    | .blocked _ => some (exec (waitFailed p) (setStatus p .idle s))
    | .idle => none
  | .unlock op p =>
    if s.status p = .idle then
      some (setHeld op p (held op s p - 1) (exec (unlock op p s.lock) s))
    else none

/-- The thread whose call returns with the lock in this step, if there is one. -/
def grantedIn (s : State) : Action → Option Pid
  | .call op p => if waitCondition op p (arrive p s).lock then some p else none
  | .wake p => match s.status p with
    | .blocked op => if waitCondition op p s.lock then some p else none
    | .idle => none
  | _ => none

/-- The queue as the condition of that call saw it. -/
def queueSeen (s : State) : Action → List Pid
  | .call _ p => (arrive p s).lock.rwQueue
  | _ => s.lock.rwQueue

@[simp] theorem setStatus_lock (p : Pid) (st : Status) (s : State) :
    (setStatus p st s).lock = s.lock := rfl
@[simp] theorem setStatus_heldRead (p : Pid) (st : Status) (s : State) :
    (setStatus p st s).heldRead = s.heldRead := rfl
@[simp] theorem setStatus_heldWrite (p : Pid) (st : Status) (s : State) :
    (setStatus p st s).heldWrite = s.heldWrite := rfl
@[simp] theorem setStatus_ticket (p : Pid) (st : Status) (s : State) :
    (setStatus p st s).ticket = s.ticket := rfl
@[simp] theorem setStatus_nextTicket (p : Pid) (st : Status) (s : State) :
    (setStatus p st s).nextTicket = s.nextTicket := rfl
@[simp] theorem setStatus_grantLog (p : Pid) (st : Status) (s : State) :
    (setStatus p st s).grantLog = s.grantLog := rfl

theorem exec_lock (stmts : List Stmt) (s : State) :
    (exec stmts s).lock = stmts.foldl (fun l st => st.update l) s.lock := by
  induction stmts generalizing s with
  | nil => rfl
  | cons st rest ih => exact ih (execStmt s st)

theorem exec_frame (stmts : List Stmt) (s : State) :
    (exec stmts s).status = s.status ∧ (exec stmts s).heldRead = s.heldRead ∧
      (exec stmts s).heldWrite = s.heldWrite ∧ (exec stmts s).ticket = s.ticket ∧
      (exec stmts s).nextTicket = s.nextTicket ∧ (exec stmts s).grantLog = s.grantLog := by
  induction stmts generalizing s with
  | nil => exact ⟨rfl, rfl, rfl, rfl, rfl, rfl⟩
  | cons st rest ih => exact ih (execStmt s st)

@[simp] theorem exec_status (stmts : List Stmt) (s : State) :
    (exec stmts s).status = s.status := (exec_frame stmts s).1
@[simp] theorem exec_heldRead (stmts : List Stmt) (s : State) :
    (exec stmts s).heldRead = s.heldRead := (exec_frame stmts s).2.1
@[simp] theorem exec_heldWrite (stmts : List Stmt) (s : State) :
    (exec stmts s).heldWrite = s.heldWrite := (exec_frame stmts s).2.2.1
@[simp] theorem exec_ticket (stmts : List Stmt) (s : State) :
    (exec stmts s).ticket = s.ticket := (exec_frame stmts s).2.2.2.1
@[simp] theorem exec_nextTicket (stmts : List Stmt) (s : State) :
    (exec stmts s).nextTicket = s.nextTicket := (exec_frame stmts s).2.2.2.2.1
@[simp] theorem exec_grantLog (stmts : List Stmt) (s : State) :
    (exec stmts s).grantLog = s.grantLog := (exec_frame stmts s).2.2.2.2.2

@[simp] theorem setHeld_lock (op : Op) (p : Pid) (n : Nat) (s : State) :
    (setHeld op p n s).lock = s.lock := by cases op <;> rfl
@[simp] theorem setHeld_status (op : Op) (p : Pid) (n : Nat) (s : State) :
    (setHeld op p n s).status = s.status := by cases op <;> rfl
@[simp] theorem setHeld_notified (op : Op) (p : Pid) (n : Nat) (s : State) :
    (setHeld op p n s).notified = s.notified := by cases op <;> rfl
@[simp] theorem setHeld_ticket (op : Op) (p : Pid) (n : Nat) (s : State) :
    (setHeld op p n s).ticket = s.ticket := by cases op <;> rfl
@[simp] theorem setHeld_nextTicket (op : Op) (p : Pid) (n : Nat) (s : State) :
    (setHeld op p n s).nextTicket = s.nextTicket := by cases op <;> rfl
@[simp] theorem setHeld_grantLog (op : Op) (p : Pid) (n : Nat) (s : State) :
    (setHeld op p n s).grantLog = s.grantLog := by cases op <;> rfl

end RwLock
