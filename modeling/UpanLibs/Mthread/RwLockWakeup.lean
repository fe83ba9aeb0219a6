import UpanLibs.Mthread.RwLockSafety

/-!
No wake-up of `rwlock` is lost. A section either ends in a notification, or makes
no waiting condition true, or leaves no thread whose condition could be true.
-/
namespace RwLock

/-- Every thread asleep on a condition that is true was notified since it became so. -/
def Woken (s : State) : Prop :=
  ∀ p op, s.status p = .blocked op → waitCondition op p s.lock = true → s.notified p = true

theorem exec_append (before after : List Stmt) (s : State) :
    exec (before ++ after) s = exec after (exec before s) := by
  simp [exec, List.foldl_append]

theorem notify_wakes (stmts : List Stmt) (c : Lock → Bool) {s : State} {p : Pid} {op : Op}
    (asleep : s.status p = .blocked op) (notify : c (exec stmts s).lock = true) :
    (exec (stmts ++ [notifyWhen c]) s).notified p = true := by
  have asleep' : (exec stmts s).status p = .blocked op := by simpa using asleep
  rw [exec_append]
  change noteNotified _ _ (c (exec stmts s).lock) _ p ((exec stmts s).status p) = true
  rw [asleep', notify]
  rfl

theorem quiet_stmt (st : Stmt) {s : State} {p : Pid} {op : Op}
    (asleep : s.status p = .blocked op)
    (silent : st.notifyAll (st.update s.lock) = false)
    (same : waitCondition op p (st.update s.lock) = waitCondition op p s.lock) :
    (execStmt s st).notified p = s.notified p := by
  simp [execStmt, noteNotified, asleep, silent, same]

theorem enqueue_condition {p q : Pid} {op : Op} {l : Lock} (here : q ∈ l.rwQueue) :
    waitCondition op q (l.enqueue p) = waitCondition op q l := by
  obtain ⟨front, rest, queue⟩ : ∃ front rest, l.rwQueue = front :: rest := by
    cases h : l.rwQueue with
    | nil => simp [h] at here
    | cons a rest => exact ⟨a, rest, rfl⟩
  by_cases twice : p ∈ l.rwQueue
  · simp [Lock.enqueue, twice]
  · have absent : ¬ (p = front ∨ p ∈ rest) := by simpa [queue] using twice
    cases op <;>
      simp [Lock.enqueue, absent, waitCondition, readCondition, writeCondition, queue]

theorem arrive_woken {s : State} {p : Pid} (inv : Inv (Waiting s) s) (woken : Woken s) :
    Woken (arrive p s) := by
  by_cases twice : p ∈ s.lock.rwQueue
  · simpa [arrive, twice] using woken
  · intro q op asleep true_
    have asleep' : s.status q = .blocked op := by
      simpa [arrive, twice, execStmt] using asleep
    have here : q ∈ s.lock.rwQueue := (inv.queued q).mpr (by simp [Waiting, asleep'])
    have same : waitCondition op q (s.lock.enqueue p) = waitCondition op q s.lock :=
      enqueue_condition here
    have flag : (arrive p s).notified q = s.notified q := by
      simp only [arrive, twice, if_false]
      exact quiet_stmt (assign (Lock.enqueue p)) asleep' rfl same
    rw [flag]
    apply woken q op asleep'
    rw [← same]
    simpa [arrive, twice, execStmt, assign] using true_

theorem grant_read_woken {s : State} {p : Pid} (after : Inv (Waiting (grant .read p s)) (grant .read p s)) :
    Woken (grant .read p s) := by
  intro q op asleep _
  have here : q ∈ (grant .read p s).lock.rwQueue :=
    (after.queued q).mpr (by simp [Waiting, asleep])
  have lock : (grant .read p s).lock = (exec (readGranted p) (setStatus p .idle s)).lock := by
    simp [grant, granted]
  have lastOnly : (exec (readGranted p) (setStatus p .idle s)).lock =
      (exec [assign (Lock.dequeue p),
        assign (fun l => { l with readers := countReader p l.readers })]
        (setStatus p .idle s)).lock := by
    simp [exec_lock, readGranted, notifyWhen]
  have nonempty : (!(exec [assign (Lock.dequeue p),
      assign (fun l => { l with readers := countReader p l.readers })]
      (setStatus p .idle s)).lock.rwQueue.isEmpty) = true := by
    rw [lock, lastOnly] at here
    simpa using List.ne_nil_of_mem here
  have asleep' : (setStatus p .idle s).status q = .blocked op := by
    simpa [grant] using asleep
  have reached := notify_wakes _ (fun l => !l.rwQueue.isEmpty) asleep' nonempty
  simpa [grant, granted, readGranted] using reached

theorem grant_write_woken {s : State} {p : Pid} : Woken (grant .write p s) := by
  intro q op asleep true_
  have other : q ≠ p := by
    intro same
    simp [grant, setStatus, same] at asleep
  have writer : (grant .write p s).lock.activeWriter = p.val := by
    simp [grant, granted, granted_write_lock]
  have excl := (condition_excludes true_).1
  rw [writer] at excl
  rcases excl with none_ | own
  · exact absurd none_ p.valid
  · exact absurd (Pid.ext own.symm) other

theorem tryAcquire_woken {op : Op} {s : State} {p : Pid}
    (inv : Inv (fun q => q = p ∨ Waiting s q) s) (woken : Woken s) :
    Woken (tryAcquire op p s) := by
  by_cases passed : waitCondition op p s.lock = true
  · have state : tryAcquire op p s = grant op p s := by simp [tryAcquire, passed]
    rw [state]
    cases op with
    | read => exact grant_read_woken (grant_read_inv inv passed)
    | write => exact grant_write_woken
  · intro q other asleep true_
    have refused : waitCondition op p s.lock = false := by simpa using passed
    by_cases same : q = p
    · have which : other = op := by
        simpa [tryAcquire, refused, setStatus, same, eq_comm] using asleep
      simp [tryAcquire, refused, same, which] at true_
    · have asleep' : s.status q = .blocked other := by
        simpa [tryAcquire, refused, setStatus, same] using asleep
      have flag := woken q other asleep' (by simpa [tryAcquire, refused] using true_)
      simpa [tryAcquire, refused, same] using flag

theorem interrupt_woken {s : State} {p : Pid} :
    Woken (exec (waitFailed p) (setStatus p .idle s)) := by
  intro q op asleep _
  have asleep' : (setStatus p .idle s).status q = .blocked op := by simpa using asleep
  exact notify_wakes [assign (Lock.dequeue p)] (fun _ => true) asleep' rfl

theorem read_condition_readers {q : Pid} {l : Lock} {rs : List (Pid × Int)}
    (same : rs.lookup q = l.readers.lookup q) :
    waitCondition .read q { l with readers := rs } = waitCondition .read q l := by
  simp [waitCondition, readCondition, same]

theorem read_unlock_woken {s : State} {p : Pid} (inv : Inv (Waiting s) s) (woken : Woken s)
    (idle : s.status p = .idle) : Woken (exec (readUnlock p s.lock) s) := by
  cases entry : s.lock.readers.lookup p with
  | none => simpa [readUnlock, entry, exec] using woken
  | some n =>
    intro q op asleep true_
    have asleep' : s.status q = .blocked op := by simpa using asleep
    have other : q ≠ p := by
      intro same
      simp [same, idle] at asleep'
    let first : Stmt := assign (fun l => { l with readers := uncountReader p l.readers })
    let second : Stmt := assign (fun l => if l.readers.lookup p = some 0 then
      { l with readers := eraseReader p l.readers } else l)
    let last : Lock → Bool := fun l => l.readers.isEmpty && l.activeWriter == noActiveWriter
    have section_ : readUnlock p s.lock = [first, second] ++ [notifyWhen last] := by
      simp [readUnlock, entry, first, second, last]
    have lock : (exec (readUnlock p s.lock) s).lock = (exec [first, second] s).lock := by
      rw [section_, exec_append]
      simp [exec, execStmt, notifyWhen]
    rw [lock] at true_
    by_cases empty : last (exec [first, second] s).lock = true
    · rw [section_]
      exact notify_wakes _ last asleep' empty
    · have silent : last (exec [first, second] s).lock = false := by simpa using empty
      have writer : (exec [first, second] s).lock.activeWriter = s.lock.activeWriter := by
        simp only [first, second, assign, exec_lock, List.foldl_cons, List.foldl_nil]
        split <;> rfl
      cases op with
      | write =>
        have notOwn : (exec [first, second] s).lock.activeWriter ≠ q.val := by
          rw [writer]
          exact inv.blockedNotWriter q (by simp [asleep'])
        obtain ⟨excl, readersGone⟩ := condition_excludes true_
        have free := excl.resolve_right notOwn
        have none_ := readersGone rfl notOwn
        simp [last, free, none_] at silent
      | read =>
        have sameFirst : waitCondition .read q (first.update s.lock) =
            waitCondition .read q s.lock := by
          apply read_condition_readers
          simp [lookup_uncountReader, other]
        have sameSecond : waitCondition .read q (second.update (first.update s.lock)) =
            waitCondition .read q (first.update s.lock) := by
          by_cases zero : (first.update s.lock).readers.lookup p = some 0
          · simp only [second, assign, zero, if_true]
            apply read_condition_readers
            simp [lookup_eraseReader, other]
          · simp only [second, assign, zero, if_false]
        have flag : (exec (readUnlock p s.lock) s).notified q = s.notified q := by
          rw [section_, exec_append]
          refine (quiet_stmt (notifyWhen last) (by simpa using asleep') ?_ rfl).trans ?_
          · simpa [notifyWhen] using silent
          · refine (quiet_stmt second (s := execStmt s first) ?_ rfl sameSecond).trans ?_
            · exact asleep'
            · exact quiet_stmt first asleep' rfl sameFirst
        rw [flag]
        apply woken q .read asleep'
        rw [← sameFirst, ← sameSecond]
        simpa [exec_lock] using true_

theorem write_unlock_woken {s : State} {p : Pid} (woken : Woken s) :
    Woken (exec (writeUnlock p s.lock) s) := by
  by_cases own : s.lock.activeWriter = p.val
  · intro q op asleep true_
    have asleep' : s.status q = .blocked op := by simpa using asleep
    let first : Stmt := assign (fun l =>
      { l with activeWriterLockCount := l.activeWriterLockCount - 1 })
    let second : Stmt := assign (fun l => if l.activeWriterLockCount = 0 then
      { l with activeWriter := noActiveWriter } else l)
    let last : Lock → Bool := fun l => l.activeWriterLockCount == 0
    have section_ : writeUnlock p s.lock = [first, second] ++ [notifyWhen last] := by
      simp [writeUnlock, own, first, second, last]
    have lock : (exec (writeUnlock p s.lock) s).lock = (exec [first, second] s).lock := by
      rw [section_, exec_append]
      simp [exec, execStmt, notifyWhen]
    rw [lock] at true_
    by_cases free : last (exec [first, second] s).lock = true
    · rw [section_]
      exact notify_wakes _ last asleep' free
    · have silent : last (exec [first, second] s).lock = false := by simpa using free
      have more : (first.update s.lock).activeWriterLockCount ≠ 0 := by
        intro zero
        simp [last, exec_lock, second, assign, zero] at silent
      have sameFirst : waitCondition op q (first.update s.lock) = waitCondition op q s.lock := by
        cases op <;> rfl
      have sameSecond : second.update (first.update s.lock) = first.update s.lock := by
        simp only [second, assign, more, if_false]
      have flag : (exec (writeUnlock p s.lock) s).notified q = s.notified q := by
        rw [section_, exec_append]
        refine (quiet_stmt (notifyWhen last) (by simpa using asleep') ?_ rfl).trans ?_
        · simpa [notifyWhen] using silent
        · refine (quiet_stmt second (s := execStmt s first) asleep' rfl ?_).trans ?_
          · exact congrArg _ sameSecond
          · exact quiet_stmt first asleep' rfl sameFirst
      rw [flag]
      apply woken q op asleep'
      rw [← sameFirst, ← sameSecond]
      simpa [exec_lock] using true_
  · simpa [writeUnlock, own, exec] using woken

theorem woken_congr {s t : State} (status : t.status = s.status) (lock : t.lock = s.lock)
    (notified : t.notified = s.notified) (woken : Woken s) : Woken t := by
  intro p op asleep true_
  rw [status] at asleep
  rw [lock] at true_
  rw [notified]
  exact woken p op asleep true_

theorem step_woken {s t : State} {a : Action} (inv : Inv (Waiting s) s) (woken : Woken s)
    (next : step s a = some t) : Woken t := by
  cases a with
  | call op p =>
    by_cases idle : s.status p = .idle
    · simp only [step, idle, if_true, Option.some.injEq] at next
      subst next
      have status : (arrive p s).status = s.status := by
        simp only [arrive]
        split <;> rfl
      refine tryAcquire_woken (inv_congr (arrive_inv inv idle) fun q => ?_)
        (arrive_woken inv woken)
      simp [Waiting, status]
    · simp [step, idle] at next
  | wake p =>
    cases here : s.status p with
    | idle => simp [step, here] at next
    | blocked op =>
      simp only [step, here, Option.some.injEq] at next
      subst next
      refine tryAcquire_woken (inv_congr inv fun q => ⟨.inr, ?_⟩) woken
      rintro (same | waiting)
      · simp [same, Waiting, here]
      · exact waiting
  | interrupt p =>
    cases here : s.status p with
    | idle => simp [step, here] at next
    | blocked op =>
      simp only [step, here, Option.some.injEq] at next
      subst next
      exact interrupt_woken
  | unlock op p =>
    by_cases idle : s.status p = .idle
    · simp only [step, idle, if_true, Option.some.injEq] at next
      subst next
      cases op with
      | read => exact woken_congr rfl rfl rfl (read_unlock_woken inv woken idle)
      | write => exact woken_congr rfl rfl rfl (write_unlock_woken woken)
    · simp [step, idle] at next

theorem rwlock_no_lost_wakeup {s : State} {as : List Action}
    (run : Transition.Run (Transition.Steps step) State.initial as s) :
    ∀ p op, s.status p = .blocked op → waitCondition op p s.lock = true →
      s.notified p = true := by
  have both := Transition.run_invariant (fun s => Inv (Waiting s) s ∧ Woken s)
    (fun _ _ _ inv next => ⟨step_inv inv.1 next, step_woken inv.1 inv.2 next⟩) run
    ⟨initial_inv, fun p op asleep => nomatch asleep⟩
  exact both.2

theorem rwlock_no_lost_wakeup_writer_waits :
    let reader : Pid := ⟨1, by decide⟩
    let writer : Pid := ⟨2, by decide⟩
    ∃ s, Transition.runAll step State.initial
        [.call .read reader, .call .write writer, .unlock .read reader] = some s ∧
      s.status writer = .blocked .write ∧ waitCondition .write writer s.lock = true ∧
      s.notified writer = true := by
  intro reader writer
  have reached : ((Transition.runAll step State.initial
      [.call .read reader, .call .write writer, .unlock .read reader]).any fun s =>
        s.status writer == .blocked .write && waitCondition .write writer s.lock) = true := by
    decide +kernel
  obtain ⟨s, here, facts⟩ := (Option.any_eq_true _ _).mp reached
  simp only [Bool.and_eq_true, beq_iff_eq] at facts
  have run := Transition.run_iff_runAll.mpr here
  exact ⟨s, here, facts.1, facts.2, rwlock_no_lost_wakeup run writer .write facts.1 facts.2⟩

end RwLock
