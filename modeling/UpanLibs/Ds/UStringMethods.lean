import UpanLibs.Ds.UString

/-!
Strings as texts. Each string that was not moved from spells its text in a buffer of
its own; one that was moved from has no buffer, and keeps the length and the capacity
of the text it had.
-/
namespace UString
open Memory RawSlots CString

inductive Meaning where
  | text (t : List UInt8)
  | movedFrom (t : List UInt8)
  deriving DecidableEq

def Meaning.letters : Meaning → List UInt8
  | .text t => t
  | .movedFrom t => t

def Meaning.edit (f : List UInt8 → List UInt8) : Meaning → Meaning
  | .text t => .text (f t)
  | .movedFrom t => .movedFrom (f t)

@[simp]
theorem Meaning.edit_self {f : List UInt8 → List UInt8} {l : Meaning}
    (same : f l.letters = l.letters) : l.edit f = l := by
  cases l with
  | text t => exact congrArg Meaning.text same
  | movedFrom t => exact congrArg Meaning.movedFrom same

/-- The buffer spells the text, with the length and the capacity that the object says. -/
structure Spelled (h : Heap Bytes) (s : Str) (t : List UInt8) : Prop where
  nulFree : (0 : UInt8) ∉ t
  len : s.len = t.length
  buffer : ∃ a rest, s.buffer = some a ∧ h.block a = some (spelled t rest) ∧
    s.capacity = t.length + 1 + rest.length

def Rep (h : Heap Bytes) (s : Str) : Meaning → Prop
  | .text t => Spelled h s t
  | .movedFrom t => s.buffer = none ∧ s.len = t.length

theorem owning_rep : Owning Str.buffer Rep := by
  constructor
  · intro h s m a rep has
    cases m with
    | text t =>
      obtain ⟨b, rest, owns, here, _⟩ := rep.buffer
      cases owns.symm.trans has
      simp [here]
    | movedFrom t => cases has.symm.trans rep.1
  · intro h h' s m rep same
    cases m with
    | text t =>
      obtain ⟨nulFree, len, a, rest, owns, here, capacity⟩ := rep
      exact ⟨nulFree, len, a, rest, owns, (same a owns).trans here, capacity⟩
    | movedFrom t => exact rep

section Methods

variable {h : Heap Bytes} {s : Str} {t u : List UInt8} {src : Source} {a : Nat}

theorem spelled_buffer {rest : Bytes} (nulFree : (0 : UInt8) ∉ t)
    (here : h.block a = some (spelled t rest)) :
    Spelled h ⟨some a, t.length, t.length + 1 + rest.length⟩ t :=
  ⟨nulFree, rfl, a, rest, rfl, here, rfl⟩

theorem spelled_cases (rep : Spelled h s t) : ∃ a rest, (0 : UInt8) ∉ t ∧
    h.block a = some (spelled t rest) ∧ s = ⟨some a, t.length, t.length + 1 + rest.length⟩ := by
  obtain ⟨buffer, len, capacity⟩ := s
  obtain ⟨nulFree, rfl, a, rest, rfl, here, rfl⟩ := rep
  exact ⟨a, rest, nulFree, here, rfl⟩

theorem spells_c_str (rep : Spelled h s t) : Spells h s.c_str t := by
  obtain ⟨a, rest, nulFree, here, rfl⟩ := spelled_cases rep
  exact spells_buffer nulFree here

theorem spells_not_null (spells : Spells h src t) : src ≠ .buffer none := by
  obtain ⟨_, rfl | ⟨b, rest, rfl, _⟩⟩ := spells
  · exact Source.noConfusion
  · intro same
    cases same

theorem spells_effect {h' : Heap Bytes} {old new : Option Nat} (spells : Spells h src t)
    (effect : Effect h h' old new) (beside : src ≠ .buffer old) :
    Spells h' src t ∧ src ≠ .buffer new := by
  obtain ⟨nulFree, rfl | ⟨b, rest, rfl, here⟩⟩ := spells
  · exact ⟨spells_text nulFree, Source.noConfusion⟩
  · have mine : old ≠ some b := fun same => beside (congrArg Source.buffer same.symm)
    have apart : new ≠ some b := by
      intro same
      obtain was | nothing := effect.fresh b same
      · exact mine was
      · cases nothing.symm.trans here
    have kept : h'.block b = some (spelled t rest) := (effect.frame b mine apart).trans here
    constructor
    · exact spells_buffer nulFree kept
    · intro same
      exact apart (Source.buffer.inj same).symm

theorem run_newCopy (spells : Spells h src t) {n : Nat} (room : t.length + 1 ≤ n) :
    ∃ h', strcpy (some h.next) src (h.add (raw n)) = some ((), h') ∧
      Effect h h' none (some h.next) ∧
      h'.block h.next = some (spelled t (raw (n - (t.length + 1)))) := by
  obtain ⟨spells, beside⟩ := spells_effect spells (.alloc h (raw n)) (spells_not_null spells)
  have place : (h.add (raw n)).block h.next =
      some (raw (t.length + 1) ++ raw (n - (t.length + 1))) := by
    rw [Heap.block_add, if_pos rfl, raw, raw, raw, List.replicate_append_replicate,
      Nat.add_sub_cancel' room]
  have copied := run_strcpy spells beside (by simp [raw]) place
  exact ⟨_, copied, (Effect.alloc h _).trans (.write _ h.next _), Heap.block_write_self place _⟩

theorem run_newBuffer (n : Nat) : Str.newBuffer n h = some (h.next, h.add (raw n)) := rfl

theorem newCopy_spelled {h' : Heap Bytes} (nulFree : (0 : UInt8) ∉ t)
    (here : h'.block h.next = some (spelled t (raw (t.length + 1 - (t.length + 1))))) :
    Spelled h' ⟨some h.next, t.length, t.length + 1⟩ t := by
  have rep := spelled_buffer nulFree here
  simpa [raw] using rep

theorem ofText_spelled (v : Option (List UInt8)) (nulFree : ∀ t, v = some t → (0 : UInt8) ∉ t) :
    ∃ s h', Str.ofText v h = some (s, h') ∧ Effect h h' none s.buffer ∧
      Spelled h' s (v.getD []) := by
  cases v with
  | none =>
    have place : (h.add (raw 8)).block h.next = some ([] ++ none :: raw 7) := by
      rw [Heap.block_add, if_pos rfl]
      rfl
    have put := run_putByte (i := 0) place rfl 0
    have here : ((h.add (raw 8)).write h.next ([] ++ some 0 :: raw 7)).block h.next =
        some (spelled [] (raw 7)) := Heap.block_write_self place _
    refine ⟨⟨some h.next, 0, 8⟩, _, ?_, (Effect.alloc h _).trans (.write _ h.next _),
      spelled_buffer (by simp) here⟩
    rw [Str.ofText, Str.init, run_bind (run_newBuffer 8), run_bind put]
    rfl
  | some t =>
    have spells := spells_text (h := h) (nulFree t rfl)
    obtain ⟨h', copied, effect, here⟩ := run_newCopy spells (Nat.le_refl (t.length + 1))
    refine ⟨⟨some h.next, t.length, t.length + 1⟩, h', ?_, effect,
      newCopy_spelled (nulFree t rfl) here⟩
    rw [Str.ofText, run_bind (run_strlen spells), run_bind (run_newBuffer _), run_bind copied]
    rfl

theorem ofPrefix_spelled {n : Nat} (nulFree : (0 : UInt8) ∉ t) (inside : n ≤ t.length) :
    ∃ s h', Str.ofPrefix t n h = some (s, h') ∧ Effect h h' none s.buffer ∧
      Spelled h' s (t.take n) := by
  have size : (t.take n).length = n := by simp [inside]
  have place : (h.add (raw (n + 1))).block h.next = some ([] ++ raw n ++ [none]) := by
    rw [Heap.block_add, if_pos rfl]
    simp [raw, List.replicate_succ']
  have copied := run_writeBytes (l := t.take n) (i := 0) (by simp [raw, inside]) place rfl
  have place' : ((h.add (raw (n + 1))).write h.next ([] ++ (t.take n).map some ++ [none])).block
      h.next = some ((t.take n).map some ++ none :: []) := Heap.block_write_self place _
  have put := run_putByte (i := n) place' (by simp [inside]) 0
  rw [Heap.write_write] at put
  have here := Heap.block_write_self place ((t.take n).map some ++ some 0 :: [])
  have nulFree' : (0 : UInt8) ∉ t.take n := fun zero => nulFree (List.mem_of_mem_take zero)
  have here' : (((h.add (raw (n + 1))).write h.next ((t.take n).map some ++ some 0 :: []))).block
      h.next = some (spelled (t.take n) []) := here
  have rep := spelled_buffer nulFree' here'
  rw [size] at rep
  refine ⟨⟨some h.next, n, n + 1⟩, _, ?_, (Effect.alloc h _).trans (.write _ h.next _), rep⟩
  rw [Str.ofPrefix, run_bind (run_newBuffer _), strncpy, if_pos inside, run_bind copied,
    run_bind put]
  rfl

theorem copy_spelled {r : Str} (rep : Spelled h r t) :
    ∃ s h', r.copy h = some (s, h') ∧ Effect h h' none s.buffer ∧ Spelled h' s t := by
  obtain ⟨h', copied, effect, here⟩ := run_newCopy (spells_c_str rep) (Nat.le_refl (t.length + 1))
  refine ⟨⟨some h.next, t.length, t.length + 1⟩, h', ?_, effect,
    newCopy_spelled rep.nulFree here⟩
  rw [Str.copy, rep.len, run_bind (run_newBuffer _), run_bind copied]
  rfl

theorem run_deleteBuffer {m : Meaning} (rep : Rep h s m) :
    ∃ h', delete s.buffer h = some ((), h') ∧ Effect h h' s.buffer none :=
  run_delete s.buffer fun _ has => owning_rep.live rep has

theorem assign_other {m : Meaning} {r : Str} (rep : Rep h s m) (source : Spelled h r t)
    (apart : ∀ a, s.buffer = some a → r.buffer ≠ some a)
    (room : s.buffer ≠ none ∨ s.capacity ≤ t.length) :
    ∃ s' h', s.assign (.other r) h = some (s', h') ∧ Effect h h' s.buffer s'.buffer ∧
      Spelled h' s' t := by
  have len : r.len = t.length := source.len
  by_cases small : s.capacity ≤ t.length
  · obtain ⟨h₁, gone, freed⟩ := run_deleteBuffer rep
    have kept : Spelled h₁ r t := by
      refine owning_rep.frame (l := .text t) source fun a has => ?_
      exact freed.frame a (fun mine => apart a mine has) (by simp)
    obtain ⟨h₂, copied, effect, here⟩ := run_newCopy (spells_c_str kept) (Nat.le_refl (t.length + 1))
    refine ⟨⟨some h₁.next, t.length, t.length + 1⟩, h₂, ?_, freed.trans effect,
      newCopy_spelled source.nulFree here⟩
    simp only [Str.assign, Ref.get, len, if_pos small]
    rw [run_bind gone, run_bind (run_newBuffer _), run_bind (run_pure _), run_bind copied]
    rfl
  · cases m with
    | movedFrom t => exact absurd rep.1 (room.resolve_right small)
    | text u =>
      obtain ⟨a, rest, nulFree, here, rfl⟩ := spelled_cases rep
      simp only at small apart
      have total : (spelled u rest).length = u.length + 1 + rest.length := by
        simp [spelled]
        omega
      obtain ⟨old, after, split, size⟩ : ∃ old after : Bytes, spelled u rest = old ++ after ∧
          old.length = t.length + 1 :=
        ⟨_, _, (List.take_append_drop (t.length + 1) _).symm, by simp [total]; omega⟩
      have after_ : u.length + 1 + rest.length = t.length + 1 + after.length := by
        rw [← total, split, List.length_append, size]
      rw [split] at here
      have beside : r.c_str ≠ .buffer (some a) := by
        intro same
        exact apart a rfl (Source.buffer.inj same)
      have copied := run_strcpy (spells_c_str source) beside size here
      have rep := spelled_buffer source.nulFree (Heap.block_write_self here (spelled t after))
      rw [← after_] at rep
      refine ⟨_, _, ?_, .write h a _, rep⟩
      simp only [Str.assign, Ref.get, len, if_neg small]
      rw [run_bind (run_pure _), run_bind copied]
      rfl

theorem assign_this (rep : Spelled h s t) : s.assign .this h = some (s, h) := by
  obtain ⟨a, rest, nulFree, here, rfl⟩ := spelled_cases rep
  have large : ¬ t.length + 1 + rest.length ≤ t.length := by omega
  simp only [Str.assign]
  split
  next full => exact absurd full large
  next =>
    rw [run_bind (run_pure _)]
    exact run_bind (run_strcpySelf nulFree here)

/-- The room made by `expandAndCopy`: the text stays, with space for `more` bytes after it. -/
def grow (s : Str) (more : Nat) : Program Bytes Str :=
  if s.capacity ≤ s.len + more then do
    let temp ← Str.newBuffer ((s.len + more + 1) * 3 / 2)
    strcpy (some temp) s.c_str
    delete s.buffer
    pure ⟨some temp, s.len + more, (s.len + more + 1) * 3 / 2⟩
  else pure { s with len := s.len + more }

theorem expandAndCopy_eq (s : Str) (r : Source) (rlen : Nat) :
    s.expandAndCopy r rlen =
      grow s rlen >>= fun s => strcat s.buffer r >>= fun _ => pure s := by
  funext h
  unfold Str.expandAndCopy grow
  by_cases small : s.capacity ≤ s.len + rlen
  · simp only [if_pos small, bind_assoc]
    rfl
  · simp only [if_neg small]

theorem grow_spelled (rep : Spelled h s t) (more : Nat) :
    ∃ a old after h', grow s more h =
        some (⟨some a, t.length + more, t.length + more + 1 + after.length⟩, h') ∧
      Effect h h' s.buffer (some a) ∧ old.length = more ∧
      h'.block a = some (spelled t (old ++ after)) := by
  have len : s.len = t.length := rep.len
  by_cases small : s.capacity ≤ s.len + more
  · obtain ⟨h₁, copied, effect, here⟩ :=
      run_newCopy (spells_c_str rep) (n := (t.length + more + 1) * 3 / 2) (by omega)
    have kept : Rep h₁ s (.text t) := owning_rep.beside (l := .text t) rep effect
    obtain ⟨h₂, gone, freed⟩ := run_deleteBuffer kept
    have apart : s.buffer ≠ some h.next := by
      intro has
      exact effect.apart (owning_rep.live (l := .text t) rep has) rfl
    obtain ⟨room, size⟩ : ∃ room, (t.length + more + 1) * 3 / 2 = t.length + 1 + (more + room) :=
      ⟨(t.length + more + 1) * 3 / 2 - (t.length + 1) - more, by omega⟩
    refine ⟨h.next, raw more, raw room, h₂, ?_, effect.exchange freed, by simp [raw], ?_⟩
    · have capacity : t.length + more + 1 + room = (t.length + more + 1) * 3 / 2 := by omega
      rw [grow, if_pos small, len, run_bind (run_newBuffer _), run_bind copied, run_bind gone]
      simp [run_pure, raw, capacity]
    · rw [freed.frame _ apart (by simp), here, size, Nat.add_sub_cancel_left, raw, raw, raw,
        List.replicate_append_replicate]
  · obtain ⟨a, rest, nulFree, here, rfl⟩ := spelled_cases rep
    simp only at small
    have size : (rest.take more).length = more := by simp; omega
    refine ⟨a, rest.take more, rest.drop more, h, ?_, .refl h _, size, ?_⟩
    · have capacity : t.length + more + 1 + (rest.length - more) = t.length + 1 + rest.length := by
        omega
      simp only [grow, if_neg small, List.length_drop, capacity]
      rfl
    · rw [List.take_append_drop, here]

theorem expandAndCopy_spelled (rep : Spelled h s t) (source : Spells h src u)
    (beside : src ≠ s.c_str) :
    ∃ s' h', s.expandAndCopy src u.length h = some (s', h') ∧
      Effect h h' s.buffer s'.buffer ∧ Spelled h' s' (t ++ u) := by
  obtain ⟨a, old, after, h₁, grown, effect, size, here⟩ := grow_spelled rep u.length
  obtain ⟨source, apart⟩ := spells_effect source effect beside
  have added := run_strcat source apart rep.nulFree size here
  have nulFree : (0 : UInt8) ∉ t ++ u := by
    rw [List.mem_append]
    exact not_or_intro rep.nulFree source.nulFree
  have rep' := spelled_buffer nulFree (Heap.block_write_self here (spelled (t ++ u) after))
  rw [List.length_append] at rep'
  refine ⟨_, _, ?_, effect.trans (.write h₁ a _), rep'⟩
  rw [expandAndCopy_eq, run_bind grown, run_bind added]
  rfl

theorem expandAndCopy_empty (rep : Spelled h s []) : s.expandAndCopy s.c_str 0 h = some (s, h) := by
  obtain ⟨a, rest, nulFree, here, rfl⟩ := spelled_cases rep
  have spells := spells_buffer nulFree here
  obtain ⟨n, extent, enough⟩ := run_extent spells
  have large : ¬ ([] : List UInt8).length + 1 + rest.length ≤ ([] : List UInt8).length + 0 := by
    simp
  have same : strcat (some a) (.buffer (some a)) h = some ((), h) := by
    rw [strcat, run_bind (run_strlen spells), run_bind extent]
    exact run_copySelf nulFree here (List.append_nil []).symm enough
  rw [expandAndCopy_eq, grow, if_neg large, run_bind (run_pure _)]
  exact run_bind same

def Edits (f : Str → Program Bytes (Str × Reply)) (h : Heap Bytes) (s : Str) (r : Reply)
    (l : Meaning) : Prop :=
  ∃ s' h', f s h = some ((s', r), h') ∧ Effect h h' s.buffer s'.buffer ∧ Rep h' s' l

theorem run_insertMoves {front back : List UInt8} {rest rest' : Bytes} {b : Nat} (apart : b ≠ a)
    (here : h.block a = some (spelled (front ++ back ++ u) rest))
    (source : h.block b = some (spelled u rest')) :
    memmove (some a) (front.length + u.length) (some a) front.length back.length h =
        some ((), h.write a ((front ++ (back ++ u).take u.length).map some ++ back.map some ++
          some 0 :: rest)) ∧
      memmove (some a) front.length (some b) 0 u.length
          (h.write a ((front ++ (back ++ u).take u.length).map some ++ back.map some ++
            some 0 :: rest)) =
        some ((), h.write a (spelled (front ++ u ++ back) rest)) := by
  have read : h.block a =
      some (front.map some ++ back.map some ++ (u.map some ++ some 0 :: rest)) := by
    rw [here]
    simp [spelled]
  have into : h.block a = some ((front ++ (back ++ u).take u.length).map some ++
      ((back ++ u).drop u.length).map some ++ some 0 :: rest) := by
    rw [here, ← List.map_append, List.append_assoc front (List.take _ _), List.take_append_drop]
    simp [spelled]
  have moved := run_writeBytes (l := back) (i := front.length + u.length) (by simp) into
    (by simp)
  have now := Heap.block_write_self here ((front ++ (back ++ u).take u.length).map some ++
    back.map some ++ some 0 :: rest)
  have read' : (h.write a ((front ++ (back ++ u).take u.length).map some ++ back.map some ++
      some 0 :: rest)).block b = some ([] ++ u.map some ++ some 0 :: rest') := by
    rw [h.block_write_other _ apart, source]
    rfl
  have into' : (h.write a ((front ++ (back ++ u).take u.length).map some ++ back.map some ++
      some 0 :: rest)).block a = some (front.map some ++ ((back ++ u).take u.length).map some ++
        (back.map some ++ some 0 :: rest)) := by
    rw [now]
    simp
  have placed := run_writeBytes (l := u) (i := front.length) (by simp) into' (by simp)
  constructor
  · rw [memmove, run_bind (run_readBytes (i := front.length) read (by simp)), moved]
  · rw [memmove, run_bind (run_readBytes (i := 0) read' rfl), placed, Heap.write_write]
    simp [spelled]

theorem split_pos {pos : Int} (inside : ¬ (pos < 0 ∨ (t.length : Int) < pos)) :
    ∃ front back, t = front ++ back ∧ pos = front.length := by
  refine ⟨t.take pos.toNat, t.drop pos.toNat, (List.take_append_drop _ _).symm, ?_⟩
  rw [List.length_take]
  omega

def insertAt (pos : Int) (u t : List UInt8) : List UInt8 × Reply :=
  if pos < 0 ∨ (t.length : Int) < pos then (t, .thrown (invalidInsert pos))
  else (t.take pos.toNat ++ u ++ t.drop pos.toNat, .done)

theorem insert_out {pos : Int} (out : pos < 0 ∨ (s.len : Int) < pos) (r : Ref) :
    s.insert pos r h = some ((s, .thrown (invalidInsert pos)), h) := by
  rw [Str.insert, if_pos out]
  rfl

theorem insert_other {r : Str} (rep : Spelled h s t) (source : Spelled h r u)
    (apart : r.buffer ≠ s.buffer) (pos : Int) :
    ∃ s' h', s.insert pos (.other r) h = some ((s', (insertAt pos u t).2), h') ∧
      Effect h h' s.buffer s'.buffer ∧ Spelled h' s' (insertAt pos u t).1 := by
  by_cases out : pos < 0 ∨ (t.length : Int) < pos
  · rw [insertAt, if_pos out]
    exact ⟨s, h, insert_out (rep.len ▸ out) _, .refl h _, rep⟩
  obtain ⟨front, back, rfl, rfl⟩ := split_pos out
  have beside : r.c_str ≠ s.c_str := fun same => apart (Source.buffer.inj same)
  obtain ⟨s', h₁, added, effect, rep'⟩ := expandAndCopy_spelled rep (spells_c_str source) beside
  obtain ⟨kept, beside'⟩ := spells_effect (spells_c_str source) effect beside
  have joined : (insertAt (front.length : Int) u (front ++ back)) =
      (front ++ u ++ back, .done) := by
    rw [insertAt, if_neg out]
    simp
  have remaining : s.len - (front.length : Int).toNat = back.length := by
    rw [rep.len]
    simp
  have inside : ¬ ((front.length : Int) < 0 ∨ (s.len : Int) < front.length) := by
    rw [rep.len]
    exact out
  rw [joined]
  simp only [Str.insert, if_neg inside, Ref.get, source.len]
  rw [remaining, Int.toNat_natCast, run_bind added]
  cases back with
  | nil =>
    refine ⟨s', h₁, rfl, effect, ?_⟩
    simpa using rep'
  | cons c back =>
    obtain ⟨a, rest, nulFree, here, rfl⟩ := spelled_cases rep'
    obtain ⟨_, same | ⟨b, rest', same, source'⟩⟩ := kept
    · cases same
    · have other : b ≠ a := by
        rintro rfl
        exact beside' same
      have first := run_insertMoves other here source'
      have rep'' := spelled_buffer (t := front ++ u ++ c :: back)
        (by simp only [List.mem_append] at nulFree ⊢; tauto)
        (Heap.block_write_self here (spelled (front ++ u ++ c :: back) rest))
      have length : (front ++ u ++ c :: back).length = (front ++ c :: back ++ u).length := by
        simp only [List.length_append]
        omega
      rw [length] at rep''
      refine ⟨_, _, ?_, effect.trans (.write h₁ a _), rep''⟩
      rw [if_pos (by simp), Source.buffer.inj same, run_bind first.1, run_bind first.2]
      rfl

theorem insertText_edits {m l : Meaning} {v : List UInt8} {pos : Int} {r : Reply}
    (rep : Rep h s m) (nulFree : (0 : UInt8) ∉ v)
    (inserts : ∀ h₁ temp, Rep h₁ s m → Spelled h₁ temp v → temp.buffer ≠ s.buffer →
      Edits (fun s => s.insert pos (.other temp)) h₁ s r l) :
    Edits (fun s => s.insertText pos v) h s r l := by
  obtain ⟨temp, h₁, made, first, spelled_⟩ := ofText_spelled (h := h) (some v) (by simpa using nulFree)
  have live : ∀ a, temp.buffer = some a → (h₁.block a).isSome := by
    intro a has
    exact owning_rep.live (l := .text v) spelled_ has
  have apart : temp.buffer ≠ s.buffer := by
    obtain ⟨a, _, has, _⟩ := spelled_.buffer
    intro same
    exact first.apart (owning_rep.live rep (same.symm.trans has)) has
  obtain ⟨s', h₂, run, middle, rep'⟩ :=
    inserts h₁ temp (owning_rep.beside rep first) spelled_ apart
  have kept : Rep h₂ temp (.text v) := by
    apply owning_rep.frame (l := .text v) spelled_
    intro a has
    have mine : s.buffer ≠ some a := fun same => apart (has.trans same.symm)
    apply middle.frame a mine
    intro now
    obtain same | was := middle.fresh a now
    · exact mine same
    · have live := live a has
      rw [was] at live
      cases live
  obtain ⟨h₃, gone, last⟩ := run_deleteBuffer kept
  refine ⟨s', h₃, ?_, first.around live middle last, ?_⟩
  · simp only [Str.insertText]
    rw [run_bind made, run_bind run, run_bind gone]
    rfl
  · apply owning_rep.frame rep'
    intro a has
    apply last.frame a _ (by simp)
    intro temporary
    obtain same | was := middle.fresh a has
    · exact apart (temporary.trans same.symm)
    · have live := live a temporary
      rw [was] at live
      cases live

theorem insert_this (rep : Spelled h s []) (pos : Int) :
    s.insert pos .this h = some ((s, (insertAt pos [] []).2), h) := by
  have len : s.len = 0 := rep.len
  by_cases out : pos < 0 ∨ ((0 : Nat) : Int) < pos
  · rw [insertAt, List.length_nil, if_pos out, insert_out (len ▸ out)]
  · rw [insertAt, List.length_nil, if_neg out]
    simp only [Str.insert, Ref.get, len, if_neg out]
    rw [run_bind (expandAndCopy_empty rep), Nat.zero_sub]
    rfl

theorem appendText_spelled (rep : Spelled h s t) (source : Spells h src u) (beside : src ≠ s.c_str) :
    ∃ s' h', s.appendText src h = some (s', h') ∧ Effect h h' s.buffer s'.buffer ∧
      Spelled h' s' (t ++ u) := by
  simp only [Str.appendText]
  rw [run_bind (run_strlen source)]
  split
  next => exact expandAndCopy_spelled rep source beside
  next empty =>
    have nothing : u = [] := by
      cases u with
      | nil => rfl
      | cons c u => simp at empty
    rw [nothing, List.append_nil]
    exact ⟨s, h, rfl, .refl h _, rep⟩

theorem append_none {r : Ref} (none_ : (r.get s).len = 0) : s.append r h = some (s, h) := by
  rw [Str.append, none_, if_neg (Nat.lt_irrefl 0)]
  rfl

theorem append_other {r : Str} (rep : Spelled h s t) (source : Spelled h r u)
    (apart : r.buffer ≠ s.buffer) :
    ∃ s' h', s.append (.other r) h = some (s', h') ∧ Effect h h' s.buffer s'.buffer ∧
      Spelled h' s' (t ++ u) := by
  have beside : r.c_str ≠ s.c_str := fun same => apart (Source.buffer.inj same)
  by_cases some_ : 0 < r.len
  · rw [Str.append, Ref.get, if_pos some_, source.len]
    exact expandAndCopy_spelled rep (spells_c_str source) beside
  · have nothing : u = [] := List.length_eq_zero_iff.mp (by rw [← source.len]; omega)
    rw [nothing, List.append_nil]
    exact ⟨s, h, append_none (Nat.eq_zero_of_not_pos some_), .refl h _, rep⟩

def eraseAt (pos len : Int) (t : List UInt8) : List UInt8 × Reply :=
  if pos < 0 ∨ len ≤ 0 ∨ (t.length : Int) ≤ pos then (t, .thrown (invalidErase pos))
  else (t.take pos.toNat ++ t.drop (pos.toNat + len.toNat), .done)

theorem erase_out {pos len : Int} (out : pos < 0 ∨ len ≤ 0 ∨ (s.len : Int) ≤ pos) :
    s.erase pos len h = some ((s, .thrown (invalidErase pos)), h) := by
  rw [Str.erase, if_pos out]
  rfl

theorem run_eraseMove {front gone back : List UInt8} {rest : Bytes} (some_ : gone ≠ [])
    (here : h.block a = some (spelled (front ++ gone ++ back) rest)) :
    ∃ h' rest', (memmove (some a) front.length (some a) (front.length + gone.length) back.length >>=
        fun _ => putByte (some a) (front.length + back.length) 0) h = some ((), h') ∧
      Effect h h' (some a) (some a) ∧ h'.block a = some (spelled (front ++ back) rest') ∧
      rest'.length = gone.length + rest.length := by
  have read : h.block a =
      some ((front ++ gone).map some ++ back.map some ++ some 0 :: rest) := by
    rw [here]
    simp [spelled]
  have into : h.block a = some (front.map some ++ ((gone ++ back).take back.length).map some ++
      (((gone ++ back).drop back.length).map some ++ some 0 :: rest)) := by
    have halves : (gone ++ back).map some = ((gone ++ back).take back.length).map some ++
        ((gone ++ back).drop back.length).map some := by
      rw [← List.map_append, List.take_append_drop]
    rw [here, spelled, List.append_assoc front, List.map_append, halves]
    simp only [List.append_assoc]
  have moved := run_writeBytes (l := back) (i := front.length) (by simp) into (by simp)
  obtain ⟨c, more, tail⟩ : ∃ c more, (gone ++ back).drop back.length = c :: more := by
    refine List.exists_cons_of_ne_nil fun none_ => some_ ?_
    have size := congrArg List.length none_
    rw [List.length_drop, List.length_append, List.length_nil] at size
    exact List.length_eq_zero_iff.mp (by omega)
  have size : more.length + 1 = gone.length := by
    have size := congrArg List.length tail
    rw [List.length_drop, List.length_append, List.length_cons] at size
    omega
  rw [tail] at moved
  have now : (h.write a (front.map some ++ back.map some ++
      ((c :: more).map some ++ some 0 :: rest))).block a =
        some ((front ++ back).map some ++ some c :: (more.map some ++ some 0 :: rest)) := by
    rw [Heap.block_write_self here]
    simp
  have put := run_putByte (i := front.length + back.length) now (by simp) 0
  refine ⟨_, more.map some ++ some 0 :: rest, ?_, .write h a _, Heap.block_write_self here _, ?_⟩
  · have taken := run_readBytes (i := front.length + gone.length) read (by simp)
    rw [memmove, run_bind ((run_bind taken).trans moved), put, Heap.write_write]
    rfl
  · simp only [List.length_append, List.length_map, List.length_cons]
    omega

theorem erase_spelled (rep : Spelled h s t) (pos len : Int) :
    Edits (fun s => s.erase pos len) h s (eraseAt pos len t).2 (.text (eraseAt pos len t).1) := by
  by_cases out : pos < 0 ∨ len ≤ 0 ∨ (t.length : Int) ≤ pos
  · rw [eraseAt, if_pos out]
    exact ⟨s, h, erase_out (rep.len ▸ out), .refl h _, rep⟩
  obtain ⟨a, rest, nulFree, here, rfl⟩ := spelled_cases rep
  obtain ⟨front, gone, back, rfl, place, count⟩ : ∃ front gone back, t = front ++ gone ++ back ∧
      pos = front.length ∧ gone.length = min len.toNat (t.length - pos.toNat) := by
    refine ⟨t.take pos.toNat, (t.drop pos.toNat).take len.toNat,
      (t.drop pos.toNat).drop len.toNat, ?_, ?_, ?_⟩
    · rw [List.append_assoc, List.take_append_drop, List.take_append_drop]
    · rw [List.length_take]
      omega
    · rw [List.length_take, List.length_drop]
  subst place
  have total : (front ++ gone ++ back).length = front.length + gone.length + back.length := by
    simp only [List.length_append]
  rw [total] at out count
  have some_ : gone ≠ [] := by
    rintro rfl
    rw [List.length_nil] at count out
    omega
  have erased : eraseAt front.length len (front ++ gone ++ back) = (front ++ back, .done) := by
    rw [eraseAt, total, if_neg out, Int.toNat_natCast, List.append_assoc, List.take_left,
      ← List.drop_drop, List.drop_left]
    obtain exact_ | all : gone.length = len.toNat ∨ back = [] ∧ gone.length ≤ len.toNat := by
      rw [← List.length_eq_zero_iff]
      omega
    · rw [← exact_, List.drop_left]
    · rw [all.1, List.append_nil, List.append_nil, List.drop_eq_nil_of_le all.2, List.append_nil]
  obtain ⟨h', rest', run, effect, now, size⟩ := run_eraseMove some_ here
  have nulFree' : (0 : UInt8) ∉ front ++ back := by
    simp only [List.mem_append, not_or] at nulFree ⊢
    exact ⟨nulFree.1.1, nulFree.2⟩
  have rep' := spelled_buffer nulFree' now
  have capacity : (front ++ back).length + 1 + rest'.length =
      (front ++ gone ++ back).length + 1 + rest.length := by
    rw [size, total, List.length_append]
    omega
  rw [capacity, List.length_append] at rep'
  rw [erased]
  refine ⟨_, h', ?_, effect, rep'⟩
  have taken : (if ((front.length + gone.length + back.length - front.length : Nat) : Int) < len
      then front.length + gone.length + back.length - front.length else len.toNat) =
        gone.length := by
    split <;> omega
  have kept : front.length + gone.length + back.length - front.length - gone.length =
      back.length := by
    omega
  have left : front.length + gone.length + back.length - gone.length =
      front.length + back.length := by
    omega
  simp only [Str.erase, total, if_neg out, Int.toNat_natCast, taken, kept, left]
  rw [← bind_assoc, run_bind run]
  rfl

theorem popBack_spelled (rep : Spelled h s t) :
    ∃ s' h', s.popBack h = some (s', h') ∧ Effect h h' s.buffer s'.buffer ∧
      Spelled h' s' t.dropLast := by
  obtain rfl | ⟨front, c, rfl⟩ := List.eq_nil_or_concat' t
  · have len : s.len = 0 := rep.len
    refine ⟨s, h, ?_, .refl h _, rep⟩
    rw [Str.popBack, len, if_neg (Nat.lt_irrefl 0)]
    rfl
  · obtain ⟨a, rest, nulFree, here, rfl⟩ := spelled_cases rep
    have place : h.block a = some (front.map some ++ some c :: some 0 :: rest) := by
      rw [here]
      simp [spelled]
    have put := run_putByte (i := front.length) place (by simp) 0
    have nulFree' : (0 : UInt8) ∉ front := fun zero => nulFree (by simp [zero])
    have rep' := spelled_buffer nulFree' (Heap.block_write_self here (spelled front (some 0 :: rest)))
    have size : front.length + 1 + (some 0 :: rest).length = front.length + 1 + 1 + rest.length := by
      rw [List.length_cons]
      omega
    rw [size] at rep'
    rw [List.dropLast_concat]
    refine ⟨_, _, ?_, .write h a _, rep'⟩
    simp only [Str.popBack, List.length_append, List.length_singleton, Nat.add_sub_cancel]
    rw [if_pos (Nat.succ_pos _), run_bind put]
    rfl

theorem clear_spelled (rep : Spelled h s t) :
    ∃ s' h', s.clear h = some (s', h') ∧ Effect h h' s.buffer s'.buffer ∧ Spelled h' s' [] := by
  obtain ⟨a, rest, nulFree, here, rfl⟩ := spelled_cases rep
  obtain ⟨c, more, first⟩ : ∃ c more, spelled t rest = c :: more := by
    cases t <;> exact ⟨_, _, rfl⟩
  have size : more.length = t.length + rest.length := by
    have size := congrArg List.length first
    simp only [spelled, List.length_append, List.length_map, List.length_cons] at size
    omega
  rw [first] at here
  have put := run_putByte (i := 0) (List.nil_append (c :: more) ▸ here) rfl 0
  have rep' := spelled_buffer (t := []) (by simp) (Heap.block_write_self here (spelled [] more))
  have capacity : ([] : List UInt8).length + 1 + more.length = t.length + 1 + rest.length := by
    rw [size, List.length_nil]
    omega
  rw [capacity] at rep'
  refine ⟨_, _, ?_, .write h a _, rep'⟩
  rw [Str.clear, run_bind put]
  rfl

end Methods

end UString
