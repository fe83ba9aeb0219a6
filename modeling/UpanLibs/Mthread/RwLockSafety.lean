import UpanLibs.Mthread.RwLock

/-!
Safety and order of `rwlock`, for every interleaving of the monitor sections.
The invariant says what the lock's fields are in terms of the locks outstanding,
and that the queue holds exactly the threads inside a lock call, by arrival.
-/
namespace RwLock

theorem lookup_cons_if (p q : Pid) (n : Int) (rs : List (Pid × Int)) :
    ((q, n) :: rs).lookup p = if p = q then some n else rs.lookup p := by
  by_cases same : p = q
  · simp [same]
  · have ne : (p == q) = false := by simpa using same
    simp [List.lookup_cons, same, ne]

theorem lookup_countReader (p q : Pid) (rs : List (Pid × Int)) :
    (countReader p rs).lookup q =
      if q = p then some ((rs.lookup p).getD 0 + 1) else rs.lookup q := by
  induction rs with
  | nil => simp [countReader, lookup_cons_if]
  | cons entry rest ih =>
    obtain ⟨r, n⟩ := entry
    by_cases here : r = p
    · subst here
      simp only [countReader, if_pos, lookup_cons_if]
      split <;> simp
    · simp only [countReader, here, if_false, lookup_cons_if, ih, Ne.symm here]
      by_cases same : q = r
      · simp [same, here]
      · simp [same]

theorem lookup_uncountReader (p q : Pid) (rs : List (Pid × Int)) :
    (uncountReader p rs).lookup q =
      if q = p then (rs.lookup p).map (· - 1) else rs.lookup q := by
  induction rs with
  | nil => simp [uncountReader]
  | cons entry rest ih =>
    obtain ⟨r, n⟩ := entry
    by_cases here : r = p
    · subst here
      simp only [uncountReader, if_pos, lookup_cons_if]
      split <;> simp
    · simp only [uncountReader, here, if_false, lookup_cons_if, ih, Ne.symm here]
      by_cases same : q = r
      · simp [same, here]
      · simp [same]

theorem lookup_eraseReader (p q : Pid) (rs : List (Pid × Int)) :
    (eraseReader p rs).lookup q = if q = p then none else rs.lookup q := by
  induction rs with
  | nil => simp [eraseReader]
  | cons entry rest ih =>
    obtain ⟨r, n⟩ := entry
    simp only [eraseReader] at ih
    by_cases here : r = p
    · subst here
      simp only [eraseReader, ne_eq, not_true_eq_false, decide_false, List.filter_cons,
        Bool.false_eq_true, if_false, ih, lookup_cons_if]
      split <;> rfl
    · simp only [eraseReader, ne_eq, here, not_false_eq_true, decide_true, List.filter_cons,
        if_true, lookup_cons_if]
      rw [ih]
      by_cases same : q = r
      · simp [same, here]
      · simp [same]

theorem readers_empty_iff (rs : List (Pid × Int)) :
    rs.isEmpty = true ↔ ∀ p, rs.lookup p = none := by
  cases rs with
  | nil => simp
  | cons entry rest =>
    simp only [List.isEmpty_cons, Bool.false_eq_true, false_iff, not_forall]
    exact ⟨entry.1, by simp⟩

/-- What the fields of the lock are, with `inside` the threads that a lock call
    has entered in the queue and not yet taken out. -/
structure Inv (inside : Pid → Prop) (s : State) : Prop where
  queueNodup : s.lock.rwQueue.Nodup
  queued : ∀ p, p ∈ s.lock.rwQueue ↔ inside p
  readers : ∀ p, s.lock.readers.lookup p =
    if s.heldRead p = 0 then none else some (s.heldRead p : Int)
  writer : ∀ p : Pid, 0 < s.heldWrite p ↔ s.lock.activeWriter = p.val
  writerCount : ∀ p : Pid, s.lock.activeWriter = p.val →
    s.lock.activeWriterLockCount = s.heldWrite p
  noWriterCount : s.lock.activeWriter = noActiveWriter → s.lock.activeWriterLockCount = 0
  readsOfWriter : ∀ p q : Pid, s.lock.activeWriter = p.val → s.heldRead q ≠ 0 → q = p
  blockedNotWriter : ∀ p, s.status p ≠ .idle → s.lock.activeWriter ≠ p.val
  tickets : s.lock.rwQueue.Pairwise (fun p q => s.ticket p < s.ticket q)
  ticketsBelow : ∀ p ∈ s.lock.rwQueue, s.ticket p < s.nextTicket
  logSorted : s.grantLog.Pairwise (· < ·)
  logBelow : ∀ g ∈ s.grantLog, g < s.nextTicket ∧ ∀ p ∈ s.lock.rwQueue, g < s.ticket p

def Waiting (s : State) (p : Pid) : Prop := s.status p ≠ .idle

theorem initial_inv : Inv (Waiting State.initial) State.initial := by
  constructor <;> intros <;> simp_all [State.initial, Lock.initial, Waiting]
  rename_i p
  exact Ne.symm p.valid

theorem arrive_inv {s : State} {p : Pid} (inv : Inv (Waiting s) s) (idle : s.status p = .idle) :
    Inv (fun q => q = p ∨ Waiting s q) (arrive p s) := by
  have absent : p ∉ s.lock.rwQueue := by
    intro mem
    exact (inv.queued p).mp mem idle
  have lock : (arrive p s).lock = { s.lock with rwQueue := s.lock.rwQueue ++ [p] } := by
    simp [arrive, absent, execStmt, assign, Lock.enqueue]
  have keep : ∀ q ∈ s.lock.rwQueue, (arrive p s).ticket q = s.ticket q := by
    intro q mem
    have ne : q ≠ p := fun same => absent (same ▸ mem)
    simp [arrive, absent, ne]
  have fresh : (arrive p s).ticket p = s.nextTicket := by simp [arrive, absent]
  have next : (arrive p s).nextTicket = s.nextTicket + 1 := by simp [arrive, absent]
  have log : (arrive p s).grantLog = s.grantLog := by simp [arrive, absent, execStmt]
  have reads : (arrive p s).heldRead = s.heldRead := by simp [arrive, absent, execStmt]
  have writes : (arrive p s).heldWrite = s.heldWrite := by simp [arrive, absent, execStmt]
  have status : (arrive p s).status = s.status := by simp [arrive, absent, execStmt]
  have bound : ∀ q ∈ s.lock.rwQueue ++ [p], (arrive p s).ticket q < s.nextTicket + 1 := by
    intro q mem
    rcases List.mem_append.mp mem with old | new
    · have := inv.ticketsBelow q old
      rw [keep q old]
      omega
    · rw [List.mem_singleton.mp new, fresh]
      omega
  constructor
  · rw [lock]
    simpa [List.nodup_append] using ⟨inv.queueNodup, fun a mem same => absent (same ▸ mem)⟩
  · intro q
    rw [lock]
    simp [inv.queued q, or_comm]
  · simpa [lock, reads] using inv.readers
  · simpa [lock, writes] using inv.writer
  · simpa [lock, writes] using inv.writerCount
  · simpa [lock] using inv.noWriterCount
  · simpa [lock, reads] using inv.readsOfWriter
  · simpa [lock, status] using inv.blockedNotWriter
  · rw [lock]
    refine List.pairwise_append.mpr ⟨?_, by simp, ?_⟩
    · exact inv.tickets.imp_of_mem fun ha hb lt => by rw [keep _ ha, keep _ hb]; exact lt
    · intro a ha b hb
      rw [List.mem_singleton.mp hb, keep a ha, fresh]
      exact inv.ticketsBelow a ha
  · rw [lock, next]
    exact bound
  · rw [log]
    exact inv.logSorted
  · intro g mem
    rw [log] at mem
    have old := inv.logBelow g mem
    refine ⟨by rw [next]; omega, ?_⟩
    intro q hq
    rw [lock] at hq
    rcases List.mem_append.mp hq with h | h
    · rw [keep q h]
      exact old.2 q h
    · rw [List.mem_singleton.mp h, fresh]
      exact old.1

theorem first_grant_at_front {inside : Pid → Prop} {s : State} {p : Pid} {op : Op}
    (inv : Inv inside s) (nothing : HoldsNothing s p) (here : p ∈ s.lock.rwQueue)
    (passed : waitCondition op p s.lock = true) : s.lock.rwQueue.head? = some p := by
  have notWriter : s.lock.activeWriter ≠ p.val := by
    intro same
    have := (inv.writer p).mpr same
    have := nothing.2
    omega
  have noReads : s.lock.readers.lookup p = none := by
    rw [inv.readers p]
    simp [nothing.1]
  have nonempty : s.lock.rwQueue ≠ [] := List.ne_nil_of_mem here
  cases op with
  | read =>
    simp only [waitCondition, readCondition, noReads] at passed
    split at passed
    · simpa [nonempty, notWriter] using passed
    · simp at passed
  | write =>
    simp only [waitCondition, writeCondition] at passed
    split at passed
    · simpa [nonempty, notWriter] using passed
    · simp at passed

theorem granted_read_lock (p : Pid) (s : State) :
    (exec (readGranted p) s).lock =
      { s.lock with rwQueue := s.lock.rwQueue.erase p
                    readers := countReader p s.lock.readers } := by
  simp [exec_lock, readGranted, assign, notifyWhen, Lock.dequeue]

theorem granted_write_lock (p : Pid) (s : State) :
    (exec (writeGranted p) s).lock =
      { s.lock with rwQueue := s.lock.rwQueue.erase p
                    activeWriter := p.val
                    activeWriterLockCount := s.lock.activeWriterLockCount + 1 } := by
  simp [exec_lock, writeGranted, assign, Lock.dequeue]

theorem wait_failed_lock (p : Pid) (s : State) :
    (exec (waitFailed p) s).lock =
      { s.lock with rwQueue := s.lock.rwQueue.erase p } := by
  simp [exec_lock, waitFailed, assign, notifyWhen, Lock.dequeue]

theorem condition_excludes {op : Op} {p : Pid} {l : Lock} (passed : waitCondition op p l = true) :
    (l.activeWriter = noActiveWriter ∨ l.activeWriter = p.val) ∧
      (op = .write → l.activeWriter ≠ p.val → l.readers.isEmpty = true) := by
  cases op with
  | read =>
    simp only [waitCondition, readCondition] at passed
    split at passed
    · rename_i open_
      exact ⟨open_, fun h => nomatch h⟩
    · simp at passed
  | write =>
    simp only [waitCondition, writeCondition] at passed
    split at passed
    · rename_i open_
      rcases open_ with own | ⟨none_, empty⟩
      · exact ⟨.inr own, fun _ ne => absurd own ne⟩
      · exact ⟨.inl none_, fun _ _ => empty⟩
    · simp at passed

theorem erase_queue {inside : Pid → Prop} {s : State} (inv : Inv inside s) (p : Pid) :
    (s.lock.rwQueue.erase p).Nodup ∧
      (∀ q, q ∈ s.lock.rwQueue.erase p ↔ q ≠ p ∧ inside q) ∧
      (s.lock.rwQueue.erase p).Pairwise (fun a b => s.ticket a < s.ticket b) ∧
      (∀ q ∈ s.lock.rwQueue.erase p, q ∈ s.lock.rwQueue) := by
  refine ⟨inv.queueNodup.erase p, ?_, inv.tickets.sublist List.erase_sublist, ?_⟩
  · intro q
    rw [inv.queueNodup.mem_erase_iff, inv.queued q]
  · intro q mem
    exact List.mem_of_mem_erase mem

theorem grant_log {inside : Pid → Prop} {s : State} {p : Pid} {op : Op} (inv : Inv inside s)
    (here : p ∈ s.lock.rwQueue) (passed : waitCondition op p s.lock = true) :
    (grant op p s).grantLog.Pairwise (· < ·) ∧
      ∀ g ∈ (grant op p s).grantLog, g < s.nextTicket ∧
        ∀ q ∈ s.lock.rwQueue.erase p, g < s.ticket q := by
  have erased := erase_queue inv p
  by_cases nothing : HoldsNothing s p
  · have front := first_grant_at_front inv nothing here passed
    have log : (grant op p s).grantLog = s.grantLog ++ [s.ticket p] := by
      simp [grant, nothing]
    rw [log]
    refine ⟨List.pairwise_append.mpr ⟨inv.logSorted, by simp, ?_⟩, ?_⟩
    · intro g mem t ht
      rw [List.mem_singleton.mp ht]
      exact (inv.logBelow g mem).2 p here
    · intro g mem
      rcases List.mem_append.mp mem with old | new
      · exact ⟨(inv.logBelow g old).1,
          fun q hq => (inv.logBelow g old).2 q (erased.2.2.2 q hq)⟩
      · rw [List.mem_singleton.mp new]
        refine ⟨inv.ticketsBelow p here, ?_⟩
        intro q hq
        obtain ⟨rest, queue⟩ : ∃ rest, s.lock.rwQueue = p :: rest := by
          cases h : s.lock.rwQueue with
          | nil => simp [h] at here
          | cons a rest => exact ⟨rest, by simp_all⟩
        have sorted := inv.tickets
        rw [queue] at hq sorted
        have : q ∈ rest := by simpa using hq
        exact (List.pairwise_cons.mp sorted).1 q this
  · have log : (grant op p s).grantLog = s.grantLog := by simp [grant, nothing]
    rw [log]
    refine ⟨inv.logSorted, fun g mem => ⟨(inv.logBelow g mem).1, ?_⟩⟩
    intro q hq
    exact (inv.logBelow g mem).2 q (erased.2.2.2 q hq)

theorem inv_congr {a b : Pid → Prop} {s : State} (inv : Inv a s) (same : ∀ p, a p ↔ b p) :
    Inv b s := by
  have eq : a = b := funext fun p => propext (same p)
  exact eq ▸ inv

theorem grant_read_inv {s : State} {p : Pid} (inv : Inv (fun q => q = p ∨ Waiting s q) s)
    (passed : waitCondition .read p s.lock = true) :
    Inv (Waiting (grant .read p s)) (grant .read p s) := by
  have erased := erase_queue inv p
  have here := (inv.queued p).mpr (.inl rfl)
  have logs := grant_log inv here passed
  have excl := (condition_excludes passed).1
  have lock : (grant .read p s).lock =
      { s.lock with rwQueue := s.lock.rwQueue.erase p
                    readers := countReader p s.lock.readers } := by
    simp [grant, granted, granted_read_lock, setStatus]
  have writes : (grant .read p s).heldWrite = s.heldWrite := by
    simp [grant, setHeld, setStatus]
  have reads : ∀ q, (grant .read p s).heldRead q =
      if q = p then s.heldRead p + 1 else s.heldRead q := by
    intro q
    simp [grant, setHeld, held, setStatus]
  have status : ∀ q, (grant .read p s).status q = if q = p then .idle else s.status q := by
    intro q
    simp [grant, setStatus]
  have ticket : (grant .read p s).ticket = s.ticket := by simp [grant, setStatus]
  have next : (grant .read p s).nextTicket = s.nextTicket := by simp [grant, setStatus]
  constructor
  · rw [lock]
    exact erased.1
  · intro q
    rw [lock]
    simp only [erased.2.1 q, Waiting, status q]
    by_cases same : q = p <;> simp [same]
  · intro q
    rw [lock, reads q]
    simp only [lookup_countReader, inv.readers]
    by_cases same : q = p
    · by_cases zero : s.heldRead p = 0 <;> simp [same, zero]
    · simp [same]
  · simpa [lock, writes] using inv.writer
  · simpa [lock, writes] using inv.writerCount
  · simpa [lock] using inv.noWriterCount
  · intro w q writer reading
    rw [lock] at writer
    rw [reads q] at reading
    by_cases same : q = p
    · rcases excl with none_ | own
      · exact absurd (writer.symm.trans none_) w.valid
      · exact same.trans (Pid.ext (own.symm.trans writer))
    · simp only [same, if_false] at reading
      exact inv.readsOfWriter w q writer reading
  · intro q waiting
    rw [status q] at waiting
    rw [lock]
    by_cases same : q = p
    · simp [same] at waiting
    · simp only [same, if_false] at waiting
      exact inv.blockedNotWriter q waiting
  · rw [lock, ticket]
    exact erased.2.2.1
  · intro q mem
    rw [lock] at mem
    rw [ticket, next]
    exact inv.ticketsBelow q (erased.2.2.2 q mem)
  · exact logs.1
  · intro g mem
    rw [lock, next, ticket]
    exact logs.2 g mem

theorem grant_write_inv {s : State} {p : Pid} (inv : Inv (fun q => q = p ∨ Waiting s q) s)
    (passed : waitCondition .write p s.lock = true) :
    Inv (Waiting (grant .write p s)) (grant .write p s) := by
  have erased := erase_queue inv p
  have here := (inv.queued p).mpr (.inl rfl)
  have logs := grant_log inv here passed
  obtain ⟨excl, empty⟩ := condition_excludes passed
  have lock : (grant .write p s).lock =
      { s.lock with rwQueue := s.lock.rwQueue.erase p
                    activeWriter := p.val
                    activeWriterLockCount := s.lock.activeWriterLockCount + 1 } := by
    simp [grant, granted, granted_write_lock, setStatus]
  have reads : (grant .write p s).heldRead = s.heldRead := by
    simp [grant, setHeld, setStatus]
  have writes : ∀ q, (grant .write p s).heldWrite q =
      if q = p then s.heldWrite p + 1 else s.heldWrite q := by
    intro q
    simp [grant, setHeld, held, setStatus]
  have status : ∀ q, (grant .write p s).status q = if q = p then .idle else s.status q := by
    intro q
    simp [grant, setStatus]
  have ticket : (grant .write p s).ticket = s.ticket := by simp [grant, setStatus]
  have next : (grant .write p s).nextTicket = s.nextTicket := by simp [grant, setStatus]
  have others : ∀ q, q ≠ p → s.heldWrite q = 0 := by
    intro q ne
    by_contra positive
    have writer := (inv.writer q).mp (Nat.pos_of_ne_zero positive)
    rcases excl with none_ | own
    · exact q.valid (writer.symm.trans none_)
    · exact ne (Pid.ext (writer.symm.trans own))
  constructor
  · rw [lock]
    exact erased.1
  · intro q
    rw [lock]
    simp only [erased.2.1 q, Waiting, status q]
    by_cases same : q = p <;> simp [same]
  · simpa [lock, reads] using inv.readers
  · intro q
    rw [lock, writes q]
    by_cases same : q = p
    · simp [same]
    · simp only [same, if_false, others q same, Nat.lt_irrefl, false_iff]
      exact fun eq => same (Pid.ext eq.symm)
  · intro q writer
    rw [lock] at writer ⊢
    have same : q = p := Pid.ext writer.symm
    rw [writes q]
    simp only [same, if_true]
    rcases excl with none_ | own
    · have zero := inv.noWriterCount none_
      have : s.heldWrite p = 0 := by
        by_contra positive
        exact p.valid (((inv.writer p).mp (Nat.pos_of_ne_zero positive)).symm.trans none_)
      omega
    · have := inv.writerCount p own
      omega
  · intro none_
    rw [lock] at none_
    exact absurd none_ p.valid
  · intro w q writer reading
    rw [lock] at writer
    rw [reads] at reading
    have same : w = p := Pid.ext writer.symm
    rcases excl with none_ | own
    · have noReaders := (readers_empty_iff _).mp (empty rfl (by rw [none_]; exact Ne.symm p.valid)) q
      simp [inv.readers q, reading] at noReaders
    · exact (inv.readsOfWriter p q own reading).trans same.symm
  · intro q waiting
    rw [status q] at waiting
    rw [lock]
    by_cases same : q = p
    · simp [same] at waiting
    · exact fun eq => same (Pid.ext eq.symm)
  · rw [lock, ticket]
    exact erased.2.2.1
  · intro q mem
    rw [lock] at mem
    rw [ticket, next]
    exact inv.ticketsBelow q (erased.2.2.2 q mem)
  · exact logs.1
  · intro g mem
    rw [lock, next, ticket]
    exact logs.2 g mem

theorem wait_inv {op : Op} {s : State} {p : Pid} (inv : Inv (fun q => q = p ∨ Waiting s q) s)
    (refused : waitCondition op p s.lock = false) :
    Inv (Waiting (tryAcquire op p s)) (tryAcquire op p s) := by
  have state : tryAcquire op p s = { setStatus p (.blocked op) s with
      notified := fun q => if q = p then false else s.notified q } := by
    simp [tryAcquire, refused]
  have notWriter : s.lock.activeWriter ≠ p.val := by
    intro own
    cases op <;> simp [waitCondition, readCondition, writeCondition, own] at refused
  rw [state]
  constructor
  · exact inv.queueNodup
  · intro q
    simp only [setStatus, Waiting]
    rw [inv.queued q]
    by_cases same : q = p <;> simp [same, Waiting]
  · exact inv.readers
  · exact inv.writer
  · exact inv.writerCount
  · exact inv.noWriterCount
  · exact inv.readsOfWriter
  · intro q waiting
    simp only [setStatus] at waiting ⊢
    by_cases same : q = p
    · rw [same]
      exact notWriter
    · simp only [same, if_false] at waiting
      exact inv.blockedNotWriter q waiting
  · exact inv.tickets
  · exact inv.ticketsBelow
  · exact inv.logSorted
  · exact inv.logBelow

theorem tryAcquire_inv {op : Op} {s : State} {p : Pid}
    (inv : Inv (fun q => q = p ∨ Waiting s q) s) :
    Inv (Waiting (tryAcquire op p s)) (tryAcquire op p s) := by
  by_cases passed : waitCondition op p s.lock = true
  · have state : tryAcquire op p s = grant op p s := by simp [tryAcquire, passed]
    rw [state]
    cases op with
    | read => exact grant_read_inv inv passed
    | write => exact grant_write_inv inv passed
  · exact wait_inv inv (by simpa using passed)

theorem interrupt_inv {s : State} {p : Pid} (inv : Inv (Waiting s) s) :
    Inv (Waiting (exec (waitFailed p) (setStatus p .idle s)))
      (exec (waitFailed p) (setStatus p .idle s)) := by
  have erased := erase_queue inv p
  have lock : (exec (waitFailed p) (setStatus p .idle s)).lock =
      { s.lock with rwQueue := s.lock.rwQueue.erase p } := wait_failed_lock p _
  have status : ∀ q, (exec (waitFailed p) (setStatus p .idle s)).status q =
      if q = p then .idle else s.status q := by
    intro q
    simp [setStatus]
  have keep : ∀ q, (exec (waitFailed p) (setStatus p .idle s)).status q ≠ .idle →
      s.status q ≠ .idle := by
    intro q waiting
    rw [status q] at waiting
    split at waiting
    · exact absurd rfl waiting
    · exact waiting
  constructor
  · rw [lock]
    exact erased.1
  · intro q
    rw [lock]
    simp only [erased.2.1 q, Waiting, status q]
    by_cases same : q = p <;> simp [same]
  · simpa [lock] using inv.readers
  · simpa [lock] using inv.writer
  · simpa [lock] using inv.writerCount
  · simpa [lock] using inv.noWriterCount
  · simpa [lock] using inv.readsOfWriter
  · intro q waiting
    rw [lock]
    exact inv.blockedNotWriter q (keep q waiting)
  · simpa [lock] using erased.2.2.1
  · intro q mem
    rw [lock] at mem
    simpa using inv.ticketsBelow q (erased.2.2.2 q mem)
  · simpa using inv.logSorted
  · intro g mem
    have old := inv.logBelow g (by simpa using mem)
    rw [lock]
    refine ⟨by simpa using old.1, ?_⟩
    intro q hq
    simpa using old.2 q (erased.2.2.2 q hq)

theorem read_unlock_lock {s : State} {p : Pid} {n : Int}
    (entry : s.lock.readers.lookup p = some n) :
    (exec (readUnlock p s.lock) s).lock =
      { s.lock with readers := if n = 1 then eraseReader p (uncountReader p s.lock.readers)
          else uncountReader p s.lock.readers } := by
  have counted : (uncountReader p s.lock.readers).lookup p = some (n - 1) := by
    simp [lookup_uncountReader, entry]
  have last : (n - 1 = 0) = (n = 1) := by
    apply propext
    omega
  simp only [exec_lock, readUnlock, entry, List.foldl_cons, List.foldl_nil, assign, notifyWhen,
    id_eq, counted, Option.some.injEq, last]
  split <;> rfl

theorem read_unlock_inv {s : State} {p : Pid} (inv : Inv (Waiting s) s) :
    Inv (Waiting (setHeld .read p (s.heldRead p - 1) (exec (readUnlock p s.lock) s)))
      (setHeld .read p (s.heldRead p - 1) (exec (readUnlock p s.lock) s)) := by
  obtain ⟨readers, lock, lookups⟩ : ∃ readers,
      (exec (readUnlock p s.lock) s).lock = { s.lock with readers := readers } ∧
      ∀ q, readers.lookup q =
        if (if q = p then s.heldRead p - 1 else s.heldRead q) = 0 then none
        else some ((if q = p then s.heldRead p - 1 else s.heldRead q : Nat) : Int) := by
    cases entry : s.lock.readers.lookup p with
    | none =>
      have none_ : s.heldRead p = 0 := by
        by_contra some_
        simp [inv.readers p, some_] at entry
      have same : exec (readUnlock p s.lock) s = s := by simp [readUnlock, entry, exec]
      refine ⟨s.lock.readers, by rw [same], fun q => ?_⟩
      by_cases eq : q = p
      · simp only [eq, entry, none_, if_true, Nat.zero_sub]
      · simp only [eq, if_false, inv.readers q]
    | some n =>
      have count : n = s.heldRead p ∧ s.heldRead p ≠ 0 := by
        rw [inv.readers p] at entry
        split at entry
        · simp at entry
        · rename_i some_
          exact ⟨(Option.some.inj entry).symm, some_⟩
      refine ⟨_, read_unlock_lock entry, fun q => ?_⟩
      by_cases eq : q = p
      · by_cases last : n = 1
        · have : s.heldRead p - 1 = 0 := by omega
          simp [last, eq, lookup_eraseReader, this]
        · have more : s.heldRead p - 1 ≠ 0 := by omega
          have cast : n - 1 = ((s.heldRead p - 1 : Nat) : Int) := by omega
          simp [last, eq, lookup_uncountReader, entry, more, cast]
      · simp only [eq, if_false]
        by_cases last : n = 1 <;>
          simp only [last, if_true, if_false, lookup_eraseReader, lookup_uncountReader, eq,
            inv.readers q]
  constructor
  · simpa [lock] using inv.queueNodup
  · simpa [lock, Waiting] using inv.queued
  · intro q
    simp only [setHeld, exec_heldRead, lock]
    exact lookups q
  · simpa [lock, setHeld] using inv.writer
  · simpa [lock, setHeld] using inv.writerCount
  · simpa [lock] using inv.noWriterCount
  · intro w q writer reading
    simp only [setHeld_lock, lock] at writer
    have before : s.heldRead q ≠ 0 := by
      intro zero
      apply reading
      by_cases same : q = p
      · subst same
        simp [setHeld, zero]
      · simp [setHeld, same, zero]
    exact inv.readsOfWriter w q writer before
  · intro q waiting
    simp only [setHeld_lock, lock]
    exact inv.blockedNotWriter q (by simpa using waiting)
  · simpa [lock] using inv.tickets
  · simpa [lock] using inv.ticketsBelow
  · simpa using inv.logSorted
  · simpa [lock] using inv.logBelow

theorem write_unlock_lock {s : State} {p : Pid} (own : s.lock.activeWriter = p.val) :
    (exec (writeUnlock p s.lock) s).lock =
      { s.lock with
        activeWriter := if s.lock.activeWriterLockCount = 1 then noActiveWriter else p.val
        activeWriterLockCount := s.lock.activeWriterLockCount - 1 } := by
  have last : (s.lock.activeWriterLockCount - 1 = 0) = (s.lock.activeWriterLockCount = 1) := by
    apply propext
    omega
  simp only [exec_lock, writeUnlock, own, ne_eq, not_true_eq_false, if_false, List.foldl_cons,
    List.foldl_nil, assign, notifyWhen, id_eq, last]
  split <;> simp_all

theorem write_unlock_inv {s : State} {p : Pid} (inv : Inv (Waiting s) s)
    (idle : s.status p = .idle) :
    Inv (Waiting (setHeld .write p (s.heldWrite p - 1) (exec (writeUnlock p s.lock) s)))
      (setHeld .write p (s.heldWrite p - 1) (exec (writeUnlock p s.lock) s)) := by
  by_cases own : s.lock.activeWriter = p.val
  · have held := (inv.writer p).mpr own
    have count := inv.writerCount p own
    have lock := write_unlock_lock own
    have others : ∀ q, q ≠ p → s.heldWrite q = 0 := by
      intro q ne
      by_contra positive
      have writer := (inv.writer q).mp (Nat.pos_of_ne_zero positive)
      exact ne (Pid.ext (writer.symm.trans own))
    have kept : ∀ q : Pid, (exec (writeUnlock p s.lock) s).lock.activeWriter = q.val →
        q = p ∧ s.lock.activeWriterLockCount ≠ 1 := by
      intro q writer
      simp only [lock] at writer
      split at writer
      · exact absurd writer.symm q.valid
      · rename_i more
        exact ⟨Pid.ext writer.symm, more⟩
    constructor
    · simpa [lock] using inv.queueNodup
    · simpa [lock, Waiting] using inv.queued
    · simpa [lock, setHeld] using inv.readers
    · intro q
      simp only [setHeld, exec_heldWrite, lock]
      by_cases same : q = p
      · subst same
        by_cases last : s.lock.activeWriterLockCount = 1
        · have one : s.heldWrite q = 1 := by omega
          simp [last, one, Ne.symm q.valid]
        · have more : 0 < s.heldWrite q - 1 := by omega
          simp [last, more]
      · simp only [same, if_false, others q same, Nat.lt_irrefl, false_iff]
        split
        · exact Ne.symm q.valid
        · exact fun eq => same (Pid.ext eq.symm)
    · intro q writer
      obtain ⟨same, more⟩ := kept q (by simpa using writer)
      subst same
      simp only [setHeld, lock, if_true]
      omega
    · intro none_
      simp only [setHeld_lock, lock] at none_ ⊢
      split at none_
      · omega
      · exact absurd none_ p.valid
    · intro w q writer reading
      obtain ⟨same, _⟩ := kept w (by simpa using writer)
      rw [same]
      exact inv.readsOfWriter p q own (by simpa [setHeld] using reading)
    · intro q waiting writer
      obtain ⟨same, _⟩ := kept q (by simpa using writer)
      subst same
      simp [idle] at waiting
    · simpa [lock] using inv.tickets
    · simpa [lock] using inv.ticketsBelow
    · simpa using inv.logSorted
    · simpa [lock] using inv.logBelow
  · have same : exec (writeUnlock p s.lock) s = s := by simp [writeUnlock, own, exec]
    have none_ : s.heldWrite p = 0 := by
      by_contra positive
      exact own ((inv.writer p).mp (Nat.pos_of_ne_zero positive))
    have writes : (fun q => if q = p then s.heldWrite p - 1 else s.heldWrite q) = s.heldWrite := by
      funext q
      by_cases eq : q = p <;> simp [eq, none_]
    rw [same]
    have state : setHeld .write p (s.heldWrite p - 1) s = s := by
      simp only [setHeld, writes]
    rw [state]
    exact inv

theorem step_inv {s t : State} {a : Action} (inv : Inv (Waiting s) s)
    (next : step s a = some t) : Inv (Waiting t) t := by
  cases a with
  | call op p =>
    by_cases idle : s.status p = .idle
    · simp only [step, idle, if_true, Option.some.injEq] at next
      subst next
      have arrived := arrive_inv inv idle
      have status : (arrive p s).status = s.status := by
        simp only [arrive]
        split <;> rfl
      refine tryAcquire_inv (inv_congr arrived fun q => ?_)
      simp [Waiting, status]
    · simp [step, idle] at next
  | wake p =>
    cases here : s.status p with
    | idle => simp [step, here] at next
    | blocked op =>
      simp only [step, here, Option.some.injEq] at next
      subst next
      refine tryAcquire_inv (inv_congr inv fun q => ?_)
      constructor
      · exact .inr
      · rintro (same | waiting)
        · simp [same, Waiting, here]
        · exact waiting
  | interrupt p =>
    cases here : s.status p with
    | idle => simp [step, here] at next
    | blocked op =>
      simp only [step, here, Option.some.injEq] at next
      subst next
      exact interrupt_inv inv
  | unlock op p =>
    by_cases idle : s.status p = .idle
    · simp only [step, idle, if_true, Option.some.injEq] at next
      subst next
      cases op with
      | read => exact read_unlock_inv inv
      | write => exact write_unlock_inv inv idle
    · simp [step, idle] at next

theorem run_inv {s : State} {as : List Action}
    (run : Transition.Run (Transition.Steps step) State.initial as s) : Inv (Waiting s) s :=
  Transition.run_invariant (fun s => Inv (Waiting s) s) (fun _ _ _ inv next => step_inv inv next)
    run initial_inv

/-- What the lock promises its callers in one state of the monitor. -/
structure LockSafe (s : State) : Prop where
  oneWriter : ∀ p q, 0 < s.heldWrite p → 0 < s.heldWrite q → p = q
  activeWriter : ∀ p : Pid, s.lock.activeWriter = p.val ↔ 0 < s.heldWrite p
  writerExcludesReaders : ∀ p : Pid, s.lock.activeWriter = p.val →
    ∀ q, s.lock.readers.lookup q ≠ none → q = p
  countActive : 0 < s.lock.activeWriterLockCount ↔ s.lock.activeWriter ≠ noActiveWriter
  countOutstanding : ∀ p : Pid, s.lock.activeWriter = p.val →
    s.lock.activeWriterLockCount = s.heldWrite p
  readerCount : ∀ p n, s.lock.readers.lookup p = some n → 0 < n ∧ n = s.heldRead p
  readerStored : ∀ p, s.lock.readers.lookup p = none → s.heldRead p = 0
  queueNodup : s.lock.rwQueue.Nodup
  queueInside : ∀ p ∈ s.lock.rwQueue, ∃ op, s.status p = .blocked op
  /-- Tickets number the arrivals, and the log lists those of first grants. -/
  grantOrder : s.grantLog.Pairwise (· < ·)

theorem inv_lockSafe {s : State} (inv : Inv (Waiting s) s) : LockSafe s := by
  constructor
  · intro p q hp hq
    have wp := (inv.writer p).mp hp
    have wq := (inv.writer q).mp hq
    exact Pid.ext (wp.symm.trans wq)
  · exact fun p => (inv.writer p).symm
  · intro p own q stored
    apply inv.readsOfWriter p q own
    intro zero
    simp [inv.readers q, zero] at stored
  · constructor
    · intro positive none_
      have := inv.noWriterCount none_
      omega
    · intro active
      have own : s.lock.activeWriter = (Pid.mk _ active).val := rfl
      have held := (inv.writer _).mpr own
      have := inv.writerCount _ own
      omega
  · exact inv.writerCount
  · intro p n entry
    rw [inv.readers p] at entry
    split at entry
    · simp at entry
    · have eq := Option.some.inj entry
      omega
  · intro p entry
    by_contra some_
    simp [inv.readers p, some_] at entry
  · exact inv.queueNodup
  · intro p mem
    have waiting := (inv.queued p).mp mem
    cases status : s.status p with
    | idle => exact absurd status waiting
    | blocked op => exact ⟨op, rfl⟩
  · exact inv.logSorted

theorem grant_from_front {s t : State} {a : Action} {p : Pid} (inv : Inv (Waiting s) s)
    (next : step s a = some t) (passes : grantedIn s a = some p) (nothing : HoldsNothing s p) :
    (queueSeen s a).head? = some p := by
  cases a with
  | call op q =>
    simp only [grantedIn] at passes
    split at passes
    · rename_i passed
      have same := Option.some.inj passes
      subst same
      have idle : s.status q = .idle := by
        by_contra busy
        simp [step, busy] at next
      have arrived := arrive_inv inv idle
      have nothing' : HoldsNothing (arrive q s) q := by
        simp only [arrive]
        split <;> exact nothing
      exact first_grant_at_front arrived nothing' ((arrived.queued q).mpr (.inl rfl)) passed
    · simp at passes
  | wake q =>
    cases here : s.status q with
    | idle => simp [grantedIn, here] at passes
    | blocked op =>
      simp only [grantedIn, here] at passes
      split at passes
      · rename_i passed
        have same := Option.some.inj passes
        subst same
        have queued := (inv.queued q).mpr (by simp [Waiting, here])
        exact first_grant_at_front inv nothing queued passed
      · simp at passes
  | interrupt q => simp [grantedIn] at passes
  | unlock op q => simp [grantedIn] at passes

theorem rwlock_safe_and_ordered {s : State} {as : List Action}
    (run : Transition.Run (Transition.Steps step) State.initial as s) :
    LockSafe s ∧ ∀ a t p, step s a = some t → grantedIn s a = some p → HoldsNothing s p →
      (queueSeen s a).head? = some p := by
  have inv := run_inv run
  exact ⟨inv_lockSafe inv, fun _ _ _ next passes nothing =>
    grant_from_front inv next passes nothing⟩

theorem rwlock_safe_and_ordered_writer_waits :
    let reader : Pid := ⟨1, by decide⟩
    let writer : Pid := ⟨2, by decide⟩
    ∃ s, Transition.runAll step State.initial
        [.call .read reader, .call .write writer, .unlock .read reader] = some s ∧
      LockSafe s ∧ (queueSeen s (.wake writer)).head? = some writer := by
  intro reader writer
  have reached : ((Transition.runAll step State.initial
      [.call .read reader, .call .write writer, .unlock .read reader]).any fun s =>
        (step s (.wake writer)).isSome && grantedIn s (.wake writer) == some writer &&
          decide (HoldsNothing s writer)) = true := by decide +kernel
  obtain ⟨s, here, facts⟩ := (Option.any_eq_true _ _).mp reached
  simp only [Bool.and_eq_true, beq_iff_eq, decide_eq_true_eq, Option.isSome_iff_exists] at facts
  obtain ⟨⟨⟨t, next⟩, passes⟩, nothing⟩ := facts
  obtain ⟨safe, front⟩ := rwlock_safe_and_ordered (Transition.run_iff_runAll.mpr here)
  exact ⟨s, here, safe, front _ t writer next passes nothing⟩

end RwLock
