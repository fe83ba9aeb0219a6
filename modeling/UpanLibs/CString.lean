import UpanLibs.RawSlots

/-!
The functions of the C string library on buffers of bytes, byte by byte. A byte that
was never written cannot be read, and nothing is read or written outside a buffer or
through the null pointer. A source that is no buffer of the heap is a text, which
ends with the byte zero.
-/
namespace CString
open Memory RawSlots SplitList

abbrev Bytes := Slots UInt8

inductive Source where
  | text (t : List UInt8)
  | buffer (p : Option Nat)
  deriving DecidableEq

def putByte (p : Option Nat) (i : Nat) (c : UInt8) : Program Bytes Unit :=
  setSlot (fun _ => true) p i (some c)

def Source.fetch (i : Nat) : Source → Program Bytes UInt8
  | .text t => fun h => (t ++ [0])[i]?.map (·, h)
  | .buffer p => readSlot p i

def Source.extent : Source → Program Bytes Nat
  | .text t => pure (t.length + 1)
  | .buffer p => do
    let a ← deref p
    let bytes ← load a
    pure bytes.length

def strlenFrom (src : Source) : Nat → Nat → Program Bytes Nat
  | 0, _ => failure
  | n + 1, i => do
    let c ← src.fetch i
    if c = 0 then pure i else strlenFrom src n (i + 1)

def strlen (src : Source) : Program Bytes Nat := do
  let n ← src.extent
  strlenFrom src n 0

/-- The copy of `strcpy` and `strcat`, to the place `off` of the destination. -/
def copyFrom (dst : Option Nat) (off : Nat) (src : Source) : Nat → Nat → Program Bytes Unit
  | 0, _ => failure
  | n + 1, i => do
    let c ← src.fetch i
    putByte dst (off + i) c
    if c = 0 then pure () else copyFrom dst off src n (i + 1)

def strcpy (dst : Option Nat) (src : Source) : Program Bytes Unit := do
  let n ← src.extent
  copyFrom dst 0 src n 0

def strcat (dst : Option Nat) (src : Source) : Program Bytes Unit := do
  let off ← strlen (.buffer dst)
  let n ← src.extent
  copyFrom dst off src n 0

def readBytes (p : Option Nat) : Nat → Nat → Program Bytes (List UInt8)
  | 0, _ => pure []
  | n + 1, i => do
    let c ← readSlot p i
    let rest ← readBytes p n (i + 1)
    pure (c :: rest)

def writeBytes (p : Option Nat) : List UInt8 → Nat → Program Bytes Unit
  | [], _ => pure ()
  | c :: cs, i => do
    putByte p i c
    writeBytes p cs (i + 1)

/-- `memmove(dst + d, src + s, n)`, and `memcpy` of places apart. -/
def memmove (dst : Option Nat) (d : Nat) (src : Option Nat) (s n : Nat) : Program Bytes Unit := do
  let moved ← readBytes src n s
  writeBytes dst moved d

/-- `strncpy` from a text of at least `n` bytes before its zero. -/
def strncpy (dst : Option Nat) (t : List UInt8) (n : Nat) : Program Bytes Unit :=
  if n ≤ t.length then writeBytes dst (t.take n) 0 else failure

def spelled (t : List UInt8) (rest : Bytes) : Bytes := t.map some ++ some 0 :: rest

/-- The source spells a text: it has no zero byte and is followed by one. -/
structure Spells (h : Heap Bytes) (src : Source) (t : List UInt8) : Prop where
  nulFree : (0 : UInt8) ∉ t
  bytes : src = .text t ∨ ∃ a rest, src = .buffer (some a) ∧ h.block a = some (spelled t rest)

section Runs

variable {h : Heap Bytes} {src : Source} {t : List UInt8} {a : Nat}

theorem spells_text (nulFree : (0 : UInt8) ∉ t) : Spells h (.text t) t := ⟨nulFree, .inl rfl⟩

theorem spells_buffer {rest : Bytes} (nulFree : (0 : UInt8) ∉ t)
    (here : h.block a = some (spelled t rest)) : Spells h (.buffer (some a)) t :=
  ⟨nulFree, .inr ⟨a, rest, rfl, here⟩⟩

theorem spells_write (spells : Spells h src t) (beside : src ≠ .buffer (some a)) (b : Bytes) :
    Spells (h.write a b) src t := by
  obtain ⟨nulFree, rfl | ⟨c, rest, rfl, here⟩⟩ := spells
  · exact spells_text nulFree
  · have other : c ≠ a := by
      rintro rfl
      exact beside rfl
    have kept : (h.write a b).block c = some (spelled t rest) := by
      rw [h.block_write_other b other, here]
    exact spells_buffer nulFree kept

theorem run_fetch (spells : Spells h src t) {before after : List UInt8} {c : UInt8}
    (at_ : t ++ [0] = before ++ c :: after) : src.fetch before.length h = some (c, h) := by
  obtain ⟨_, rfl | ⟨a, rest, rfl, here⟩⟩ := spells
  · simp only [Source.fetch, at_, get_length, Option.map_some]
  · have split : spelled t rest = before.map some ++ some c :: (after.map some ++ rest) := by
      have mapped := congrArg (List.map some) at_
      rw [List.map_append, List.map_append] at mapped
      rw [spelled, List.append_cons]
      simp only [List.map_cons, List.map_nil] at mapped
      rw [mapped]
      simp
    rw [split] at here
    exact run_readSlot here (by simp)

theorem run_extent (spells : Spells h src t) :
    ∃ n, src.extent h = some (n, h) ∧ t.length + 1 ≤ n := by
  obtain ⟨_, rfl | ⟨a, rest, rfl, here⟩⟩ := spells
  · exact ⟨_, rfl, Nat.le_refl _⟩
  · refine ⟨(spelled t rest).length, ?_, by simp [spelled]⟩
    rw [Source.extent, run_bind (run_deref a), run_bind (run_load here)]
    rfl

theorem run_strlenFrom (spells : Spells h src t) {done rest : List UInt8} (split : t = done ++ rest)
    {n : Nat} (enough : rest.length + 1 ≤ n) :
    strlenFrom src n done.length h = some (t.length, h) := by
  induction rest generalizing done n with
  | nil =>
    obtain ⟨n, rfl⟩ : ∃ m, n = m + 1 := ⟨n - 1, by simp at enough; omega⟩
    have last : t ++ [0] = done ++ 0 :: [] := by simp [split]
    rw [strlenFrom, run_bind (run_fetch spells last), if_pos rfl, split, List.append_nil]
    rfl
  | cons c rest ih =>
    obtain ⟨n, rfl⟩ : ∃ m, n = m + 1 := ⟨n - 1, by simp at enough; omega⟩
    have here : t ++ [0] = done ++ c :: (rest ++ [0]) := by simp [split]
    have nonzero : c ≠ 0 := by
      rintro rfl
      exact spells.nulFree (by simp [split])
    rw [strlenFrom, run_bind (run_fetch spells here), if_neg nonzero]
    have split' : t = done ++ [c] ++ rest := by simp [split]
    have next := ih split' (n := n) (by simpa using enough)
    rwa [List.length_append, List.length_singleton] at next

theorem run_strlen (spells : Spells h src t) : strlen src h = some (t.length, h) := by
  obtain ⟨n, extent, enough⟩ := run_extent spells
  rw [strlen, run_bind extent]
  exact run_strlenFrom spells (List.nil_append t).symm enough

theorem run_putByte {before after : Bytes} {old : Option UInt8} {i : Nat}
    (here : h.block a = some (before ++ old :: after)) (at_ : before.length = i) (c : UInt8) :
    putByte (some a) i c h = some ((), h.write a (before ++ some c :: after)) :=
  run_setSlot rfl here at_ _

theorem run_copyFrom (spells : Spells h src t) (beside : src ≠ .buffer (some a))
    {done rest : List UInt8} (split : t = done ++ rest) {before old after : Bytes}
    (room : old.length = rest.length + 1)
    (here : h.block a = some (before ++ done.map some ++ old ++ after)) {n : Nat}
    (enough : rest.length + 1 ≤ n) :
    copyFrom (some a) before.length src n done.length h =
      some ((), h.write a (before ++ spelled t after)) := by
  induction rest generalizing h done old n with
  | nil =>
    obtain ⟨n, rfl⟩ : ∃ m, n = m + 1 := ⟨n - 1, by simp at enough; omega⟩
    obtain ⟨o, rfl⟩ : ∃ o, old = [o] := List.length_eq_one_iff.mp room
    have last : t ++ [0] = done ++ 0 :: [] := by simp [split]
    have place : h.block a = some (before ++ done.map some ++ o :: after) := by
      rw [here]
      simp
    rw [copyFrom, run_bind (run_fetch spells last), run_bind (run_putByte place (by simp) 0),
      if_pos rfl]
    simp [run_pure, spelled, split]
  | cons c rest ih =>
    obtain ⟨n, rfl⟩ : ∃ m, n = m + 1 := ⟨n - 1, by simp at enough; omega⟩
    obtain ⟨o, old, rfl⟩ := List.exists_cons_of_length_eq_add_one room
    have here' : t ++ [0] = done ++ c :: (rest ++ [0]) := by simp [split]
    have nonzero : c ≠ 0 := by
      rintro rfl
      exact spells.nulFree (by simp [split])
    have place : h.block a = some (before ++ done.map some ++ o :: (old ++ after)) := by
      rw [here]
      simp
    rw [copyFrom, run_bind (run_fetch spells here'), run_bind (run_putByte place (by simp) c),
      if_neg nonzero]
    have split' : t = done ++ [c] ++ rest := by simp [split]
    have place' : (h.write a (before ++ done.map some ++ some c :: (old ++ after))).block a =
        some (before ++ (done ++ [c]).map some ++ old ++ after) := by
      rw [Heap.block_write_self place]
      simp
    have next := ih (spells_write spells beside _) split' (by simpa using room) place' (n := n)
      (by simpa using enough)
    rw [List.length_append, List.length_singleton] at next
    rw [next, Heap.write_write]

theorem run_copySelf {rest : Bytes} (nulFree : (0 : UInt8) ∉ t)
    (here : h.block a = some (spelled t rest)) {done more : List UInt8} (split : t = done ++ more)
    {n : Nat} (enough : more.length + 1 ≤ n) :
    copyFrom (some a) 0 (.buffer (some a)) n done.length h = some ((), h) := by
  have spells := spells_buffer nulFree here
  induction more generalizing done n with
  | nil =>
    obtain ⟨n, rfl⟩ : ∃ m, n = m + 1 := ⟨n - 1, by simp at enough; omega⟩
    have last : t ++ [0] = done ++ 0 :: [] := by simp [split]
    have place : h.block a = some (done.map some ++ some 0 :: rest) := by
      rw [here, split]
      simp [spelled]
    rw [copyFrom, run_bind (run_fetch spells last), run_bind (run_putByte place (by simp) 0),
      if_pos rfl, h.write_same place]
    rfl
  | cons c more ih =>
    obtain ⟨n, rfl⟩ : ∃ m, n = m + 1 := ⟨n - 1, by simp at enough; omega⟩
    have here' : t ++ [0] = done ++ c :: (more ++ [0]) := by simp [split]
    have nonzero : c ≠ 0 := by
      rintro rfl
      exact nulFree (by simp [split])
    have place : h.block a = some (done.map some ++ some c :: (more.map some ++ some 0 :: rest)) := by
      rw [here, split]
      simp [spelled]
    rw [copyFrom, run_bind (run_fetch spells here'), run_bind (run_putByte place (by simp) c),
      if_neg nonzero, h.write_same place]
    have split' : t = done ++ [c] ++ more := by simp [split]
    have next := ih split' (n := n) (by simpa using enough)
    rwa [List.length_append, List.length_singleton] at next

theorem run_strcpy (spells : Spells h src t) (beside : src ≠ .buffer (some a)) {old after : Bytes}
    (room : old.length = t.length + 1) (here : h.block a = some (old ++ after)) :
    strcpy (some a) src h = some ((), h.write a (spelled t after)) := by
  obtain ⟨n, extent, enough⟩ := run_extent spells
  rw [strcpy, run_bind extent]
  have place : h.block a = some ([] ++ [].map some ++ old ++ after) := here
  exact run_copyFrom spells beside (List.nil_append t).symm room place enough

theorem run_strcpySelf {rest : Bytes} (nulFree : (0 : UInt8) ∉ t)
    (here : h.block a = some (spelled t rest)) :
    strcpy (some a) (.buffer (some a)) h = some ((), h) := by
  obtain ⟨n, extent, enough⟩ := run_extent (spells_buffer nulFree here)
  rw [strcpy, run_bind extent]
  exact run_copySelf nulFree here (List.nil_append t).symm enough

theorem run_strcat (spells : Spells h src t) (beside : src ≠ .buffer (some a)) {front : List UInt8}
    (nulFree : (0 : UInt8) ∉ front) {old after : Bytes} (room : old.length = t.length)
    (here : h.block a = some (spelled front (old ++ after))) :
    strcat (some a) src h = some ((), h.write a (spelled (front ++ t) after)) := by
  obtain ⟨n, extent, enough⟩ := run_extent spells
  rw [strcat, run_bind (run_strlen (spells_buffer nulFree here)), run_bind extent]
  have place : h.block a = some (front.map some ++ [].map some ++ (some 0 :: old) ++ after) := by
    rw [here, spelled]
    simp
  have copied := run_copyFrom spells beside (List.nil_append t).symm (by simpa using room)
    place enough
  rw [List.length_map] at copied
  rw [List.length_nil] at copied
  rw [copied]
  simp [spelled]

theorem run_readBytes {before after : Bytes} {l : List UInt8} {i : Nat}
    (here : h.block a = some (before ++ l.map some ++ after)) (at_ : before.length = i) :
    readBytes (some a) l.length i h = some (l, h) := by
  induction l generalizing before i with
  | nil => rfl
  | cons c l ih =>
    have place : h.block a = some (before ++ some c :: (l.map some ++ after)) := by
      rw [here]
      simp
    have place' : h.block a = some (before ++ [some c] ++ l.map some ++ after) := by
      rw [here]
      simp
    have rest := ih place' (i := i + 1) (by simp [at_])
    rw [List.length_cons, readBytes, run_bind (run_readSlot place at_), run_bind rest]
    rfl

theorem run_writeBytes {before old after : Bytes} {l : List UInt8} {i : Nat}
    (room : old.length = l.length) (here : h.block a = some (before ++ old ++ after))
    (at_ : before.length = i) :
    writeBytes (some a) l i h = some ((), h.write a (before ++ l.map some ++ after)) := by
  induction l generalizing h before old i with
  | nil =>
    rw [List.length_eq_zero_iff.mp room] at here
    rw [List.map_nil, h.write_same here]
    rfl
  | cons c l ih =>
    obtain ⟨o, old, rfl⟩ := List.exists_cons_of_length_eq_add_one room
    have place : h.block a = some (before ++ o :: (old ++ after)) := by
      rw [here]
      simp
    have place' : (h.write a (before ++ some c :: (old ++ after))).block a =
        some (before ++ [some c] ++ old ++ after) := by
      rw [Heap.block_write_self place]
      simp
    have rest := ih (by simpa using room) place' (i := i + 1) (by simp [at_])
    rw [writeBytes, run_bind (run_putByte place at_ c), rest, Heap.write_write]
    simp

end Runs

end CString
