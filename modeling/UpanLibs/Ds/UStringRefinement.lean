import UpanLibs.Ds.UStringMethods

/-!
Every run of operations on strings against the same operations on texts. The condition
names the calls that work: those that need a buffer are on strings that have one, and
none appends or inserts a string with characters to itself.
-/
namespace UString
open Memory RawSlots CString

section Model

variable {V : Type}

abbrev Model (V : Type) := V → Option Meaning

def lettersOf (m : Model V) (x : V) : List UInt8 := (m x).elim [] Meaning.letters

def CArg.letters (m : Model V) : CArg V → List UInt8
  | .text v => v
  | .c_str y => lettersOf m y

def Op.Moves : Op V → Prop
  | .moveConstruct _ _ | .moveAssign _ _ => True
  | _ => False

/-- The strings of the operation live, those it constructs do not, and no text it is given
    has a zero byte. -/
def Admits (s : State V) : Op V → Prop
  | .ofText x v => s.object x = none ∧ (0 : UInt8) ∉ v.getD []
  | .ofPrefix x v len => s.object x = none ∧ (0 : UInt8) ∉ v ∧ len ≤ v.length
  | .copyConstruct x y | .moveConstruct x y => s.object x = none ∧ (s.object y).isSome
  | .destruct x | .erase x _ _ | .popBack x | .clear x => (s.object x).isSome
  | .assign x y | .moveAssign x y | .append x y | .insert x _ y =>
    (s.object x).isSome ∧ (s.object y).isSome
  | .appendText x (.text v) | .insertText x _ v => (s.object x).isSome ∧ (0 : UInt8) ∉ v
  | .appendText x (.c_str y) => (s.object x).isSome ∧ (s.object y).isSome
  | .appendChar x r => (s.object x).isSome ∧ r ≠ 0

def State.Buffered (s : State V) (x : V) : Prop := ((s.object x).bind Str.buffer).isSome

def State.length (s : State V) (x : V) : Nat := (s.object x).elim 0 Str.len

def State.capacity (s : State V) (x : V) : Nat := (s.object x).elim 0 Str.capacity

/-- The operation uses no buffer of a string that was moved from, and adds no string that
    has characters to itself. -/
def Allowed (s : State V) : Op V → Prop
  | .copyConstruct _ y => s.Buffered y
  | .assign x y => s.Buffered y ∧ (s.Buffered x ∨ s.capacity x ≤ s.length y)
  | .append x y => s.length y = 0 ∨ s.Buffered x ∧ s.Buffered y ∧ x ≠ y
  | .appendText x (.text v) => v = [] ∨ s.Buffered x
  | .appendText x (.c_str y) => s.Buffered y ∧ (s.length y = 0 ∨ s.Buffered x ∧ x ≠ y)
  | .appendChar x _ | .clear x => s.Buffered x
  | .insert x pos y => (pos < 0 ∨ (s.length x : Int) < pos) ∨
      s.Buffered x ∧ s.Buffered y ∧ (x ≠ y ∨ s.length x = 0)
  | .insertText x pos _ => (pos < 0 ∨ (s.length x : Int) < pos) ∨ s.Buffered x
  | .erase x pos len => (pos < 0 ∨ len ≤ 0 ∨ (s.length x : Int) ≤ pos) ∨ s.Buffered x
  | .popBack x => s.length x = 0 ∨ s.Buffered x
  | .ofText _ _ | .ofPrefix _ _ _ | .moveConstruct _ _ | .destruct _ | .moveAssign _ _ => True

abbrev Holds : State V → Model V → Prop := Represents Str.buffer Rep

variable {s : State V} {m : Model V} {x y : V}

theorem rep_len {h : Heap Bytes} {o : Str} {l : Meaning} (rep : Rep h o l) :
    o.len = l.letters.length := by
  cases l with
  | text t => exact rep.len
  | movedFrom t => exact rep.2

theorem Holds.length_eq (held : Holds s m) : s.length x = (lettersOf m x).length := by
  cases object : s.object x with
  | none =>
    have related := held.objects x
    rw [object] at related
    cases here : m x with
    | none => simp [State.length, lettersOf, object, here]
    | some l =>
      rw [here] at related
      cases related
  | some o =>
    obtain ⟨l, here, rep⟩ := held.of_object object
    simp [State.length, lettersOf, object, here, rep_len rep]

theorem Holds.spelled (held : Holds s m) (buffered : s.Buffered x) :
    ∃ o t, s.object x = some o ∧ m x = some (.text t) ∧ Spelled s.heap o t := by
  cases object : s.object x with
  | none => simp [State.Buffered, object] at buffered
  | some o =>
    obtain ⟨l, here, rep⟩ := held.of_object object
    cases l with
    | text t => exact ⟨o, t, rfl, here, rep⟩
    | movedFrom t => simp [State.Buffered, object, rep.1] at buffered

theorem Holds.apart (held : Holds s m) (other : x ≠ y) {o r : Str} {a : Nat}
    (object : s.object x = some o) (source : s.object y = some r) (has : o.buffer = some a) :
    r.buffer ≠ some a := by
  intro same
  apply other
  apply held.single x y a
  · rw [object]
    exact has
  · rw [source]
    exact same

theorem Holds.beside (held : Holds s m) (other : x ≠ y) {o r : Str} {t : List UInt8}
    (object : s.object x = some o) (source : s.object y = some r) (rep : Spelled s.heap r t) :
    r.buffer ≠ o.buffer := by
  obtain ⟨a, _, has, _⟩ := rep.buffer
  intro same
  exact held.apart other object source (same.symm.trans has) has

theorem letters_of {l : Meaning} (here : m x = some l) : lettersOf m x = l.letters := by
  rw [lettersOf, here]
  rfl

theorem letters_nil (held : Holds s m) (empty : s.length x = 0) : lettersOf m x = [] := by
  rw [held.length_eq] at empty
  exact List.length_eq_zero_iff.mp empty

variable [DecidableEq V]

def onLetters (m : Model V) (x : V) (f : List UInt8 → List UInt8 × Reply) : Model V × Reply :=
  match m x with
  | none => (m, .done)
  | some l => (Function.update m x (some (l.edit fun t => (f t).1)), (f l.letters).2)

/-- All that a move takes from `y`. -/
def moved (m : Model V) (x y : V) : Model V :=
  Function.update (Function.update m x (m y)) y (some (.movedFrom (lettersOf m y)))

def next (m : Model V) : Op V → Model V × Reply
  | .ofText x v => (Function.update m x (some (.text (v.getD []))), .done)
  | .ofPrefix x v len => (Function.update m x (some (.text (v.take len))), .done)
  | .copyConstruct x y | .assign x y =>
    (Function.update m x (some (.text (lettersOf m y))), .done)
  | .moveConstruct x y | .moveAssign x y => (moved m x y, .done)
  | .destruct x => (Function.update m x none, .done)
  | .append x y => onLetters m x fun t => (t ++ lettersOf m y, .done)
  | .appendText x r => onLetters m x fun t => (t ++ r.letters m, .done)
  | .appendChar x r => onLetters m x fun t => (t ++ [r], .done)
  | .insert x pos y => onLetters m x (insertAt pos (lettersOf m y))
  | .insertText x pos v => onLetters m x (insertAt pos v)
  | .erase x pos len => onLetters m x (eraseAt pos len)
  | .popBack x => onLetters m x fun t => (t.dropLast, .done)
  | .clear x => onLetters m x fun _ => ([], .done)

theorem edits_refines {o : Str} {l : Meaning} {f : Str → Program Bytes (Str × Reply)}
    {g : List UInt8 → List UInt8 × Reply} (held : Holds s m) (object : s.object x = some o)
    (here : m x = some l)
    (edits : Edits f s.heap o (g l.letters).2 (l.edit fun t => (g t).1)) :
    ∃ s', s.call x f = some (s', (onLetters m x g).2) ∧ Holds s' (onLetters m x g).1 := by
  obtain ⟨o', h', run, effect, rep'⟩ := edits
  simp only [onLetters, here]
  exact ⟨_, held.call owning_rep object run effect rep'⟩

theorem spelled_edits {h : Heap Bytes} {o : Str} {t : List UInt8} {f : Str → Program Bytes Str}
    (spelled_ : ∃ o' h', f o h = some (o', h') ∧ Effect h h' o.buffer o'.buffer ∧
      Spelled h' o' t) :
    Edits (fun o => (f o).map fun o => (o, .done)) h o .done (.text t) := by
  obtain ⟨o', h', run, effect, rep⟩ := spelled_
  exact ⟨o', h', run_map run _, effect, rep⟩

theorem unchanged_edits {h : Heap Bytes} {o : Str} {l : Meaning} {r : Reply}
    {f : Str → Program Bytes (Str × Reply)} (rep : Rep h o l) (run : f o h = some ((o, r), h)) :
    Edits f h o r l := ⟨o, h, run, .refl h _, rep⟩

theorem ref_this (s : State V) (x : V) : s.ref x x = some .this := if_pos rfl

theorem ref_other (other : x ≠ y) {r : Str} (source : s.object y = some r) :
    s.ref x y = some (.other r) := by
  rw [State.ref, if_neg (Ne.symm other), source]
  rfl

theorem building_refines {f : Program Bytes Str} {t : List UInt8} (held : Holds s m)
    (fresh : s.object x = none)
    (made : ∃ o h', f s.heap = some (o, h') ∧ Effect s.heap h' none o.buffer ∧ Spelled h' o t) :
    ∃ s', (s.build x f).map (·, Reply.done) = some (s', .done) ∧
      Holds s' (Function.update m x (some (.text t))) := by
  obtain ⟨o, h', run, effect, rep⟩ := made
  obtain ⟨built, held'⟩ := held.build owning_rep (l := .text t) fresh run effect rep
  refine ⟨_, ?_, held'⟩
  rw [built]
  rfl

theorem append_refines (held : Holds s m) (lives : (s.object x).isSome)
    (source : (s.object y).isSome) (allowed : Allowed s (.append x y)) :
    ∃ s', step s (.append x y) = some (s', (next m (.append x y)).2) ∧
      Holds s' (next m (.append x y)).1 := by
  obtain ⟨o, object⟩ := Option.isSome_iff_exists.mp lives
  obtain ⟨r, object'⟩ := Option.isSome_iff_exists.mp source
  obtain ⟨l, here, rep⟩ := held.of_object object
  obtain empty | ⟨mine, yours, other⟩ := allowed
  · obtain ⟨ref, arg, none_⟩ : ∃ ref, s.ref x y = some ref ∧ (ref.get o).len = 0 := by
      by_cases same : x = y
      · subst same
        exact ⟨_, ref_this s x, by simpa [State.length, object, Ref.get] using empty⟩
      · exact ⟨_, ref_other same object', by simpa [State.length, object', Ref.get] using empty⟩
    simp only [step, arg, next, letters_nil held empty, List.append_nil]
    refine edits_refines held object here (unchanged_edits ?_ (run_map (append_none none_) _))
    rwa [Meaning.edit_self rfl]
  · obtain ⟨o, t, object, here, rep⟩ := held.spelled mine
    obtain ⟨r, u, object', here', rep'⟩ := held.spelled yours
    simp only [step, ref_other other object', next, letters_of here']
    exact edits_refines held object here
      (spelled_edits (append_other rep rep' (held.beside other object object' rep')))

theorem appendText_refines (held : Holds s m) {r : CArg V} (admits : Admits s (.appendText x r))
    (allowed : Allowed s (.appendText x r)) :
    ∃ s', step s (.appendText x r) = some (s', (next m (.appendText x r)).2) ∧
      Holds s' (next m (.appendText x r)).1 := by
  have lives : (s.object x).isSome := by
    cases r <;> exact admits.1
  obtain ⟨o, object⟩ := Option.isSome_iff_exists.mp lives
  obtain ⟨l, here, rep⟩ := held.of_object object
  -- an empty text changes nothing, also in a string that was moved from
  have empty : ∀ src, s.source r = some src → Spells s.heap src [] → r.letters m = [] →
      ∃ s', step s (.appendText x r) = some (s', (next m (.appendText x r)).2) ∧
        Holds s' (next m (.appendText x r)).1 := by
    intro src source spells none_
    have run : o.appendText src s.heap = some (o, s.heap) := by
      simp only [Str.appendText]
      rw [run_bind (run_strlen spells)]
      rfl
    simp only [step, source, next, none_, List.append_nil]
    refine edits_refines held object here (unchanged_edits ?_ (run_map run _))
    rwa [Meaning.edit_self rfl]
  cases r with
  | text v =>
    obtain rfl | mine := allowed
    · exact empty _ rfl (spells_text (by simp)) rfl
    · obtain ⟨o, t, object, here, rep⟩ := held.spelled mine
      exact edits_refines held object here
        (spelled_edits (appendText_spelled rep (spells_text admits.2) Source.noConfusion))
  | c_str y =>
    obtain ⟨yours, allowed⟩ := allowed
    obtain ⟨r, u, object', here', rep'⟩ := held.spelled yours
    have source : s.source (.c_str y) = some r.c_str := by
      rw [State.source, object']
      rfl
    have letters : CArg.letters m (.c_str y) = u := letters_of here'
    obtain none_ | ⟨mine, other⟩ := allowed
    · have nothing : u = [] := letters.symm.trans (letters_nil held none_)
      subst nothing
      exact empty _ source (spells_c_str rep') letters
    · obtain ⟨o, t, object, here, rep⟩ := held.spelled mine
      have beside : r.c_str ≠ o.c_str := by
        intro same
        exact held.beside other object object' rep' (Source.buffer.inj same)
      simp only [step, source, next, letters]
      exact edits_refines held object here
        (spelled_edits (appendText_spelled rep (spells_c_str rep') beside))

theorem insert_refines (held : Holds s m) {pos : Int} (lives : (s.object x).isSome)
    (source : (s.object y).isSome) (allowed : Allowed s (.insert x pos y)) :
    ∃ s', step s (.insert x pos y) = some (s', (next m (.insert x pos y)).2) ∧
      Holds s' (next m (.insert x pos y)).1 := by
  obtain ⟨o, object⟩ := Option.isSome_iff_exists.mp lives
  obtain ⟨r, object'⟩ := Option.isSome_iff_exists.mp source
  obtain ⟨l, here, rep⟩ := held.of_object object
  obtain out | ⟨mine, yours, apart⟩ := allowed
  · obtain ⟨ref, arg⟩ : ∃ ref, s.ref x y = some ref := by
      by_cases same : x = y
      · subst same
        exact ⟨_, ref_this s x⟩
      · exact ⟨_, ref_other same object'⟩
    have out' : pos < 0 ∨ (l.letters.length : Int) < pos := by
      rwa [held.length_eq, letters_of here] at out
    have same : insertAt pos (lettersOf m y) l.letters =
        (l.letters, .thrown (invalidInsert pos)) := if_pos out'
    simp only [step, arg, next]
    refine edits_refines held object here ?_
    rw [same]
    refine unchanged_edits ?_ (insert_out ((rep_len rep).symm ▸ out') ref)
    rwa [Meaning.edit_self (congrArg Prod.fst same)]
  · obtain ⟨o, t, object, here, rep⟩ := held.spelled mine
    obtain ⟨r, u, object', here', rep'⟩ := held.spelled yours
    by_cases same : x = y
    · subst same
      have nothing : t = [] := by
        rw [← letters_nil held (apart.resolve_left fun other => other rfl), letters_of here]
        rfl
      subst nothing
      have empty : (insertAt pos [] []).1 = [] := by
        unfold insertAt
        split <;> simp
      simp only [step, ref_this, next, letters_of here]
      refine edits_refines held object here (unchanged_edits ?_ (insert_this rep pos))
      rw [Meaning.edit_self empty]
      exact rep
    · simp only [step, ref_other same object', next, letters_of here']
      exact edits_refines held object here
        (insert_other rep rep' (held.beside same object object' rep') pos)

theorem insertText_refines (held : Holds s m) {pos : Int} {v : List UInt8}
    (lives : (s.object x).isSome) (nulFree : (0 : UInt8) ∉ v)
    (allowed : Allowed s (.insertText x pos v)) :
    ∃ s', step s (.insertText x pos v) = some (s', (next m (.insertText x pos v)).2) ∧
      Holds s' (next m (.insertText x pos v)).1 := by
  obtain ⟨o, object⟩ := Option.isSome_iff_exists.mp lives
  obtain ⟨l, here, rep⟩ := held.of_object object
  refine edits_refines held object here (insertText_edits rep nulFree ?_)
  intro h₁ temp rep₁ made apart
  obtain out | mine := allowed
  · have out' : pos < 0 ∨ (l.letters.length : Int) < pos := by
      rwa [held.length_eq, letters_of here] at out
    have same : insertAt pos v l.letters = (l.letters, .thrown (invalidInsert pos)) := if_pos out'
    rw [same]
    refine unchanged_edits ?_ (insert_out ((rep_len rep).symm ▸ out') _)
    rwa [Meaning.edit_self (congrArg Prod.fst same)]
  · obtain ⟨o', t, object', here', _⟩ := held.spelled mine
    cases object.symm.trans object'
    cases here.symm.trans here'
    exact insert_other rep₁ made apart pos

theorem erase_refines (held : Holds s m) {pos len : Int} (lives : (s.object x).isSome)
    (allowed : Allowed s (.erase x pos len)) :
    ∃ s', step s (.erase x pos len) = some (s', (next m (.erase x pos len)).2) ∧
      Holds s' (next m (.erase x pos len)).1 := by
  obtain out | mine := allowed
  · obtain ⟨o, object⟩ := Option.isSome_iff_exists.mp lives
    obtain ⟨l, here, rep⟩ := held.of_object object
    have out' : pos < 0 ∨ len ≤ 0 ∨ (l.letters.length : Int) ≤ pos := by
      rwa [held.length_eq, letters_of here] at out
    have same : eraseAt pos len l.letters = (l.letters, .thrown (invalidErase pos)) := if_pos out'
    refine edits_refines held object here ?_
    rw [same]
    refine unchanged_edits ?_ (erase_out ((rep_len rep).symm ▸ out'))
    rwa [Meaning.edit_self (congrArg Prod.fst same)]
  · obtain ⟨o, t, object, here, rep⟩ := held.spelled mine
    exact edits_refines held object here (erase_spelled rep pos len)

theorem popBack_refines (held : Holds s m) (lives : (s.object x).isSome)
    (allowed : Allowed s (.popBack x)) :
    ∃ s', step s (.popBack x) = some (s', (next m (.popBack x)).2) ∧
      Holds s' (next m (.popBack x)).1 := by
  obtain empty | mine := allowed
  · obtain ⟨o, object⟩ := Option.isSome_iff_exists.mp lives
    obtain ⟨l, here, rep⟩ := held.of_object object
    have nothing : l.letters = [] := by rw [← letters_of here, letters_nil held empty]
    have run : o.popBack s.heap = some (o, s.heap) := by
      rw [Str.popBack, rep_len rep, nothing, List.length_nil, if_neg (Nat.lt_irrefl 0)]
      rfl
    refine edits_refines held object here (unchanged_edits ?_ (run_map run _))
    rwa [Meaning.edit_self (by simp [nothing])]
  · obtain ⟨o, t, object, here, rep⟩ := held.spelled mine
    exact edits_refines held object here (spelled_edits (popBack_spelled rep))

theorem runs_refines {o : Str} {t : List UInt8} {f : Str → Program Bytes Str} (held : Holds s m)
    (object : s.object x = some o)
    (spelled_ : ∃ o' h', f o s.heap = some (o', h') ∧ Effect s.heap h' o.buffer o'.buffer ∧
      Spelled h' o' t) :
    ∃ s', s.run x f = some (s', .done) ∧ Holds s' (Function.update m x (some (.text t))) := by
  obtain ⟨o', h', run, effect, rep⟩ := spelled_edits spelled_
  exact ⟨_, held.call owning_rep object run effect rep⟩

theorem assign_refines (held : Holds s m) (lives : (s.object x).isSome)
    (allowed : Allowed s (.assign x y)) :
    ∃ s', step s (.assign x y) = some (s', (next m (.assign x y)).2) ∧
      Holds s' (next m (.assign x y)).1 := by
  obtain ⟨yours, room⟩ := allowed
  obtain ⟨r, u, object', here', rep'⟩ := held.spelled yours
  by_cases same : x = y
  · subst same
    simp only [step, ref_this, next, letters_of here']
    exact runs_refines held object' ⟨r, s.heap, assign_this rep', .refl s.heap _, rep'⟩
  · obtain ⟨o, object⟩ := Option.isSome_iff_exists.mp lives
    obtain ⟨l, here, rep⟩ := held.of_object object
    have room' : o.buffer ≠ none ∨ o.capacity ≤ u.length := by
      refine room.imp (fun mine => ?_) fun small => ?_
      · simp only [State.Buffered, object, Option.bind_some] at mine
        exact Option.isSome_iff_ne_none.mp mine
      · rw [held.length_eq, letters_of here'] at small
        simpa [State.capacity, object, Meaning.letters] using small
    simp only [step, ref_other same object', next, letters_of here']
    exact runs_refines held object
      (assign_other rep rep' (fun a has => held.apart same object object' has) room')

theorem moveConstruct_refines (held : Holds s m) (fresh : s.object x = none)
    (source : (s.object y).isSome) :
    ∃ s', step s (.moveConstruct x y) = some (s', .done) ∧ Holds s' (moved m x y) := by
  obtain ⟨r, object⟩ := Option.isSome_iff_exists.mp source
  obtain ⟨l, here, rep⟩ := held.of_object object
  have apart : x ≠ y := by
    rintro rfl
    cases fresh.symm.trans object
  have size : r.len = l.letters.length := rep_len rep
  have left : Rep s.heap r.released (.movedFrom (lettersOf m y)) := by
    rw [letters_of here]
    exact ⟨rfl, size⟩
  have taken := held.move owning_rep apart fresh rfl left
  refine ⟨_, ?_, taken⟩
  simp only [step, fresh, object]

theorem moveAssign_refines (held : Holds s m) (lives : (s.object x).isSome)
    (source : (s.object y).isSome) :
    ∃ s', step s (.moveAssign x y) = some (s', .done) ∧ Holds s' (moved m x y) := by
  obtain ⟨o, object⟩ := Option.isSome_iff_exists.mp lives
  obtain ⟨r, object'⟩ := Option.isSome_iff_exists.mp source
  obtain ⟨l, here, rep⟩ := held.of_object object
  obtain ⟨l', here', rep'⟩ := held.of_object object'
  obtain ⟨h', run, effect⟩ := run_deleteBuffer rep
  have stepped : step s (.moveAssign x y) =
      some ((s.update x h' (some r)).update y h' (some r.released), .done) := by
    simp only [step, object, object', run]
    rfl
  have size : r.len = l'.letters.length := rep_len rep'
  have left : Rep h' r.released (.movedFrom (lettersOf m y)) := by
    rw [letters_of here']
    exact ⟨rfl, size⟩
  refine ⟨_, stepped, ?_⟩
  by_cases same : x = y
  · subst same
    have released : Effect s.heap h' ((s.object x).bind Str.buffer)
        ((some r.released).bind Str.buffer) := by
      rw [object]
      exact effect
    have gone := held.update owning_rep released (.some left)
    rwa [World.update_update, moved, Function.update_idem]
  · exact held.moveOver owning_rep same object object' effect rfl left

theorem step_refines (held : Holds s m) {op : Op V} (admits : Admits s op)
    (allowed : Allowed s op) :
    ∃ s', step s op = some (s', (next m op).2) ∧ Holds s' (next m op).1 := by
  cases op with
  | ofText x v =>
    refine building_refines held admits.1 (ofText_spelled v fun t here => ?_)
    simpa [here] using admits.2
  | ofPrefix x v len =>
    exact building_refines held admits.1 (ofPrefix_spelled admits.2.1 admits.2.2)
  | copyConstruct x y =>
    obtain ⟨r, u, object, here, rep⟩ := held.spelled allowed
    simp only [step, object, next, letters_of here]
    exact building_refines held admits.1 (copy_spelled rep)
  | moveConstruct x y => exact moveConstruct_refines held admits.1 admits.2
  | destruct x =>
    obtain ⟨o, object⟩ := Option.isSome_iff_exists.mp admits
    obtain ⟨l, here, rep⟩ := held.of_object object
    obtain ⟨h', run, effect⟩ := run_deleteBuffer rep
    refine ⟨s.update x h' none, ?_, held.destroy owning_rep object effect⟩
    simp only [step, object, run]
    rfl
  | assign x y => exact assign_refines held admits.1 allowed
  | moveAssign x y => exact moveAssign_refines held admits.1 admits.2
  | append x y => exact append_refines held admits.1 admits.2 allowed
  | appendText x r => exact appendText_refines held admits allowed
  | appendChar x r =>
    obtain ⟨o, t, object, here, rep⟩ := held.spelled allowed
    have nulFree : (0 : UInt8) ∉ [r] := by simpa using admits.2.symm
    exact edits_refines held object here
      (spelled_edits (expandAndCopy_spelled rep (spells_text nulFree) Source.noConfusion))
  | insert x pos y => exact insert_refines held admits.1 admits.2 allowed
  | insertText x pos v => exact insertText_refines held admits.1 admits.2 allowed
  | erase x pos len => exact erase_refines held admits allowed
  | popBack x => exact popBack_refines held admits allowed
  | clear x =>
    obtain ⟨o, t, object, here, rep⟩ := held.spelled allowed
    exact edits_refines held object here (spelled_edits (clear_spelled rep))

def after (s : State V) (op : Op V) : Option (State V) := (step s op).map Prod.fst

def Permitted (s : State V) (op : Op V) : Prop := Admits s op ∧ Allowed s op

def texts (ops : List (Op V)) : Model V := ops.foldl (fun m op => (next m op).1) fun _ => none

def Unmoved (m : Model V) : Prop := ∀ x l, m x = some l → ∃ t, l = .text t

theorem unmoved_update {l : Option Meaning} (unmoved : Unmoved m)
    (text : ∀ r, l = some r → ∃ t, r = .text t) : Unmoved (Function.update m x l) := by
  intro z r here
  by_cases same : z = x
  · subst same
    rw [Function.update_self] at here
    exact text r here
  · rw [Function.update_of_ne same] at here
    exact unmoved z r here

theorem unmoved_onLetters (unmoved : Unmoved m) (x : V) (f : List UInt8 → List UInt8 × Reply) :
    Unmoved (onLetters m x f).1 := by
  unfold onLetters
  cases here : m x with
  | none => exact unmoved
  | some l =>
    apply unmoved_update unmoved
    intro r same
    obtain ⟨t, rfl⟩ := unmoved x l here
    cases same
    exact ⟨_, rfl⟩

theorem next_unmoved (unmoved : Unmoved m) {op : Op V} (stays : ¬ op.Moves) :
    Unmoved (next m op).1 := by
  cases op with
  | moveConstruct x y | moveAssign x y => exact absurd trivial stays
  | ofText | ofPrefix | copyConstruct | assign =>
    apply unmoved_update unmoved
    intro r same
    cases same
    exact ⟨_, rfl⟩
  | destruct x =>
    apply unmoved_update unmoved
    intro r nothing
    cases nothing
  | append | appendText | appendChar | insert | insertText | erase | popBack | clear =>
    exact unmoved_onLetters unmoved _ _

theorem foldl_unmoved {ops : List (Op V)} (stays : ∀ op ∈ ops, ¬ op.Moves) (unmoved : Unmoved m) :
    Unmoved (ops.foldl (fun m op => (next m op).1) m) := by
  induction ops generalizing m with
  | nil => exact unmoved
  | cons op ops ih =>
    apply ih
    · intro o mem
      exact stays o (by simp [mem])
    · exact next_unmoved unmoved (stays op (by simp))

theorem run_texts {ops : List (Op V)}
    (run : Transition.Run (Transition.Guarded Permitted (Transition.Steps after)) initial ops s) :
    Holds s (texts ops) := by
  refine Transition.run_simulation Holds (fun m op => (next m op).1) ?_ run _ represents_empty
  intro s op s' m held ⟨⟨admits, allowed⟩, stepped⟩
  obtain ⟨s₁, steps, held'⟩ := step_refines held admits allowed
  simp only [Transition.Steps, after, steps, Option.map_some, Option.some.injEq] at stepped
  exact stepped ▸ held'

/-- After every run of permitted operations each string that was not moved from spells its
    text in its own buffer, the next permitted operation answers as it does on texts, and
    without moves all strings have buffers. -/
theorem strings_spell_texts {ops : List (Op V)}
    (run : Transition.Run (Transition.Guarded Permitted (Transition.Steps after)) initial ops s) :
    Represents Str.buffer Rep s (texts ops) ∧
      (∀ op, Permitted s op → ∃ s', step s op = some (s', (next (texts ops) op).2) ∧
        Represents Str.buffer Rep s' (next (texts ops) op).1) ∧
      ((∀ op ∈ ops, ¬ op.Moves) → ∀ x o, s.object x = some o →
        ∃ t, texts ops x = some (.text t) ∧ Spelled s.heap o t) := by
  have held := run_texts run
  refine ⟨held, fun op permitted => step_refines held permitted.1 permitted.2, ?_⟩
  intro stays x o object
  obtain ⟨l, here, rep⟩ := held.of_object object
  have unmoved : Unmoved (texts ops) := foldl_unmoved stays (by intro x l nothing; cases nothing)
  obtain ⟨t, rfl⟩ := unmoved x l here
  exact ⟨t, here, rep⟩

instance (s : State V) : ∀ op : Op V, Decidable (Admits s op)
  | .ofText x v => inferInstanceAs (Decidable (s.object x = none ∧ (0 : UInt8) ∉ v.getD []))
  | .ofPrefix x v len =>
    inferInstanceAs (Decidable (s.object x = none ∧ (0 : UInt8) ∉ v ∧ len ≤ v.length))
  | .copyConstruct x y | .moveConstruct x y =>
    inferInstanceAs (Decidable (s.object x = none ∧ (s.object y).isSome = true))
  | .destruct x | .erase x _ _ | .popBack x | .clear x =>
    inferInstanceAs (Decidable ((s.object x).isSome = true))
  | .assign x y | .moveAssign x y | .append x y | .insert x _ y =>
    inferInstanceAs (Decidable ((s.object x).isSome = true ∧ (s.object y).isSome = true))
  | .appendText x (.text v) | .insertText x _ v =>
    inferInstanceAs (Decidable ((s.object x).isSome = true ∧ (0 : UInt8) ∉ v))
  | .appendText x (.c_str y) =>
    inferInstanceAs (Decidable ((s.object x).isSome = true ∧ (s.object y).isSome = true))
  | .appendChar x r => inferInstanceAs (Decidable ((s.object x).isSome = true ∧ r ≠ 0))

instance (s : State V) (x : V) : Decidable (s.Buffered x) :=
  inferInstanceAs (Decidable (_ = true))

instance (s : State V) : ∀ op : Op V, Decidable (Allowed s op)
  | .copyConstruct _ y => inferInstanceAs (Decidable (s.Buffered y))
  | .assign x y => inferInstanceAs
      (Decidable (s.Buffered y ∧ (s.Buffered x ∨ s.capacity x ≤ s.length y)))
  | .append x y => inferInstanceAs
      (Decidable (s.length y = 0 ∨ s.Buffered x ∧ s.Buffered y ∧ x ≠ y))
  | .appendText x (.text v) => inferInstanceAs (Decidable (v = [] ∨ s.Buffered x))
  | .appendText x (.c_str y) => inferInstanceAs
      (Decidable (s.Buffered y ∧ (s.length y = 0 ∨ s.Buffered x ∧ x ≠ y)))
  | .appendChar x _ | .clear x => inferInstanceAs (Decidable (s.Buffered x))
  | .insert x pos y => inferInstanceAs (Decidable ((pos < 0 ∨ (s.length x : Int) < pos) ∨
      s.Buffered x ∧ s.Buffered y ∧ (x ≠ y ∨ s.length x = 0)))
  | .insertText x pos _ => inferInstanceAs
      (Decidable ((pos < 0 ∨ (s.length x : Int) < pos) ∨ s.Buffered x))
  | .erase x pos len => inferInstanceAs
      (Decidable ((pos < 0 ∨ len ≤ 0 ∨ (s.length x : Int) ≤ pos) ∨ s.Buffered x))
  | .popBack x => inferInstanceAs (Decidable (s.length x = 0 ∨ s.Buffered x))
  | .ofText _ _ | .ofPrefix _ _ _ | .moveConstruct _ _ | .destruct _ | .moveAssign _ _ =>
    .isTrue trivial

instance (s : State V) (op : Op V) : Decidable (Permitted s op) :=
  inferInstanceAs (Decidable (_ ∧ _))

end Model

def editedStrings : List (Op Bool) :=
  [.ofText true (some [97]), .copyConstruct false true, .append true false,
   .insert true 1 false, .erase true 1 9, .moveAssign true false, .appendChar true 98,
   .assign false true]

theorem strings_spell_texts_edited :
    ∃ s : State Bool, Transition.runAll (Transition.guarded Permitted after) initial
        editedStrings = some s ∧
      Represents Str.buffer Rep s (texts editedStrings) := by
  have reached : (Transition.runAll (Transition.guarded Permitted after) (initial : State Bool)
      editedStrings).isSome = true := by
    decide +kernel
  obtain ⟨s, here⟩ := Option.isSome_iff_exists.mp reached
  exact ⟨s, here, (strings_spell_texts (Transition.run_guarded_iff.mpr here)).1⟩

/-- A string that was moved from has no buffer, and to clear it writes through the null
    pointer; a string that is added to itself is read after its buffer was freed. -/
theorem moved_string_has_no_buffer :
    (∃ s : State Bool, Transition.runAll (Transition.guarded Admits after) initial
        [.ofText true (some [97, 98]), .moveConstruct false true] = some s ∧
      (s.object true).map Str.buffer = some none ∧
      Admits s (.clear true) ∧ step s (.clear true) = none) ∧
    ∃ s : State Bool, Transition.runAll (Transition.guarded Admits after) initial
        [.ofText true (some [97, 98])] = some s ∧
      Admits s (.append true true) ∧ step s (.append true true) = none := by
  have moved : ((Transition.runAll (Transition.guarded Admits after) (initial : State Bool)
      [.ofText true (some [97, 98]), .moveConstruct false true]).any fun s =>
        (s.object true).map Str.buffer = some none ∧ Admits s (.clear true) ∧
          (step s (.clear true)).isNone) = true := by
    decide +kernel
  have doubled : ((Transition.runAll (Transition.guarded Admits after) (initial : State Bool)
      [.ofText true (some [97, 98])]).any fun s =>
        Admits s (.append true true) ∧ (step s (.append true true)).isNone) = true := by
    decide +kernel
  obtain ⟨s, here, facts⟩ := (Option.any_eq_true _ _).mp moved
  obtain ⟨null, admits, stuck⟩ := of_decide_eq_true facts
  obtain ⟨s', here', facts'⟩ := (Option.any_eq_true _ _).mp doubled
  obtain ⟨admits', stuck'⟩ := of_decide_eq_true facts'
  exact ⟨⟨s, here, null, admits, Option.isNone_iff_eq_none.mp stuck⟩,
    s', here', admits', Option.isNone_iff_eq_none.mp stuck'⟩

end UString
