import UpanLibs.Stream.FileStreamLines

/-!
The class `ConfigFileDB`: items are keys with values, and comments, which have an empty key.
-/
namespace ConfigFileDB
open StringText FileStream LineSplit

def HASH : UInt8 := 35
def EQUALS : UInt8 := 61

inductive OpType where
  | RDONLY
  | RDWR
  deriving DecidableEq

abbrev Item := Bytes × Bytes

structure DB where
  opType : OpType
  batchWrite : Bool
  items : List Item

def loadLine (line : Bytes) : Option Item :=
  let line := trim line
  if line.head? = some HASH then some ([], line)
  else (split EQUALS line).map fun parts => (trim parts.1, trim parts.2)

/-- The loop of the constructor; every line it reads has at least one character, its
    newline aside only the last one. -/
def loadFrom : Nat → Stream → List Item → Option (List Item)
  | 0, _, _ => none
  | rounds + 1, s, items =>
    match readLine s with
    | (none, _) => some items
    | (some line, s) => loadFrom rounds s (items ++ (loadLine line).toList)

/-- The constructor, on a file that `read` hands out in chunks. -/
def load (opType : OpType) (chunks : List Bytes) : Option DB :=
  (loadFrom (chunks.flatten.length + 1) (open_ chunks) []).map fun items => ⟨opType, false, items⟩

namespace DB

def get (db : DB) (key : Bytes) : Option Bytes :=
  if key ≠ [] then (db.items.find? fun i => i.1 == key).map Prod.snd else none

def itemLine (i : Item) : Bytes := if i.1 = [] then i.2 else i.1 ++ EQUALS :: i.2

/-- What the file has after the call, if it is written. -/
def writeToConfigFile (db : DB) : Option Bytes :=
  if db.opType = .RDWR ∧ db.batchWrite = false then
    some (db.items.flatMap fun i => itemLine i ++ [NEWLINE])
  else none

end DB

open DB

/-- A line that does not start with `=`, or only with one in front of a comment. -/
def Survives (line : Bytes) : Prop :=
  (trim line).head? = some EQUALS → (trim ((trim line).drop 1)).head? = some HASH

variable {line : Bytes} {i : Item}

theorem head_mem {s : Bytes} {c : UInt8} (head : s.head? = some c) : c ∈ s :=
  List.mem_of_head? head

theorem loadLine_comment (inner : Core line) (hash : line.head? = some HASH) :
    loadLine line = some ([], line) := by
  rw [loadLine, trim_core inner]
  exact if_pos hash

theorem loadLine_split {key value : Bytes} (inner : Core (key ++ EQUALS :: value))
    (plain : EQUALS ∉ key) (no_hash : (key ++ EQUALS :: value).head? ≠ some HASH) :
    loadLine (key ++ EQUALS :: value) = some (trim key, trim value) := by
  rw [loadLine, trim_core inner]
  simp only [if_neg no_hash, split_append plain, Option.map_some]

theorem core_of_ends {s : Bytes} {c d : UInt8} (first : s.head? = some c)
    (graphic : isspace c = false) (last : s.getLast? = some d) (graphic' : isspace d = false) :
    Core s := by
  obtain ⟨rest, rfl⟩ := List.head?_eq_some_iff.mp first
  obtain ⟨front, split⟩ := List.getLast?_eq_some_iff.mp last
  exact ⟨⟨c, rest, rfl, graphic⟩, front, d, split, graphic'⟩

theorem core_first {s : Bytes} (inner : Core s) : ∃ c, s.head? = some c ∧ isspace c = false := by
  obtain ⟨⟨c, rest, rfl, graphic⟩, -⟩ := inner
  exact ⟨c, rfl, graphic⟩

theorem core_last {s : Bytes} (inner : Core s) : ∃ c, s.getLast? = some c ∧ isspace c = false := by
  obtain ⟨-, front, c, rfl, graphic⟩ := inner
  exact ⟨c, List.getLast?_append_cons front c [], graphic⟩

theorem loadLine_cases (loaded : loadLine line = some i) :
    (∃ text, Core text ∧ trim line = text ∧ text.head? = some HASH ∧ i = ([], text)) ∨
    ∃ key value, Core (key ++ EQUALS :: value) ∧ trim line = key ++ EQUALS :: value ∧
      EQUALS ∉ key ∧ (key ++ EQUALS :: value).head? ≠ some HASH ∧ i = (trim key, trim value) := by
  have inner : ∀ c, c ∈ trim line → isspace c = false → Core (trim line) := by
    intro c mem graphic
    exact (core_trim ((trim_sublist line).subset mem) graphic).1
  rw [loadLine] at loaded
  split at loaded
  next hash =>
    cases loaded
    exact .inl ⟨_, inner HASH (head_mem hash) rfl, rfl, hash, rfl⟩
  next no_hash =>
    by_cases mem : EQUALS ∈ trim line
    · obtain ⟨key, value, split_, plain⟩ := first_line mem
      have core := inner EQUALS mem rfl
      rw [split_] at core no_hash
      rw [split_, split_append plain] at loaded
      cases loaded
      exact .inr ⟨key, value, core, split_, plain, no_hash, rfl⟩
    · rw [split_none mem] at loaded
      cases loaded

theorem trim_value {key value : Bytes} (inner : Core (key ++ EQUALS :: value)) :
    trim value = [] ∧ value = [] ∨ Core (trim value) := by
  by_cases nothing : value = []
  · subst nothing
    exact .inl ⟨rfl, rfl⟩
  · obtain ⟨c, last, graphic⟩ := core_last inner
    rw [List.append_cons, List.getLast?_append_of_ne_nil _ nothing] at last
    exact .inr (core_trim (List.mem_of_getLast? last) graphic).1

theorem trim_key {key value : Bytes} (inner : Core (key ++ EQUALS :: value)) (some_ : key ≠ []) :
    Core (trim key) ∧ (trim key).head? = key.head? := by
  obtain ⟨c, rest, rfl⟩ := List.exists_cons_of_ne_nil some_
  obtain ⟨d, first, graphic⟩ := core_first inner
  obtain rfl : c = d := Option.some.inj first
  obtain ⟨before, core, after, split_, left, right, core_⟩ := core_of_graphic List.mem_cons_self graphic
  cases before with
  | nil =>
    rw [split_, trim_spec left right core_]
    refine ⟨core_, ?_⟩
    obtain ⟨⟨e, rest', rfl, -⟩, -⟩ := core_
    rfl
  | cons space before =>
    obtain ⟨rfl, -⟩ := List.cons.inj split_
    rw [left c List.mem_cons_self] at graphic
    cases graphic

theorem reload_keyed {key value : Bytes} (inner : Core (key ++ EQUALS :: value))
    (plain : EQUALS ∉ key) (no_hash : (key ++ EQUALS :: value).head? ≠ some HASH)
    (some_ : key ≠ []) :
    loadLine (itemLine (trim key, trim value)) = some (trim key, trim value) := by
  obtain ⟨core_key, head⟩ := trim_key inner some_
  obtain ⟨c, first, graphic⟩ := core_first core_key
  have plain' : EQUALS ∉ trim key := fun mem => plain ((trim_sublist key).subset mem)
  have not_nil : trim key ≠ [] := List.ne_nil_of_mem (head_mem first)
  have start : ∀ v, (trim key ++ EQUALS :: v).head? = some c := by
    intro v
    rw [List.head?_append, first]
    rfl
  have trimmed : trim (trim value) = trim value := by
    obtain ⟨nothing, -⟩ | core_value := trim_value inner
    · rw [nothing, trim_nil]
    · exact trim_core core_value
  have core_ : Core (trim key ++ EQUALS :: trim value) := by
    obtain ⟨nothing, -⟩ | core_value := trim_value inner
    · rw [nothing]
      exact core_of_ends (start []) graphic (List.getLast?_append_cons (trim key) EQUALS []) rfl
    · obtain ⟨d, last, graphic'⟩ := core_last core_value
      apply core_of_ends (start _) graphic _ graphic'
      have more : trim value ≠ [] := by
        intro nothing
        rw [nothing] at last
        cases last
      rw [List.append_cons, List.getLast?_append_of_ne_nil _ more, last]
  have no_hash' : (trim key ++ EQUALS :: trim value).head? ≠ some HASH := by
    intro hash
    apply no_hash
    rw [List.head?_append, ← head, first]
    rw [start] at hash
    exact hash
  rw [itemLine, if_neg not_nil, loadLine_split core_ plain' no_hash', trim_core core_key, trimmed]

theorem reload_keyless {value : Bytes} (inner : Core (EQUALS :: value)) :
    loadLine (itemLine ([], trim value)) = some ([], trim value) ↔
      (trim value).head? = some HASH := by
  have written : itemLine ([], trim value) = trim value := if_pos rfl
  have trimmed : trim value = [] ∧ value = [] ∨ Core (trim value) := by
    rw [← List.nil_append (EQUALS :: value)] at inner
    exact trim_value inner
  rw [written]
  constructor
  · intro same
    obtain ⟨text, -, here, hash, item⟩ | ⟨key', value', -, here, -, -, item⟩ := loadLine_cases same
    · obtain ⟨-, value_⟩ := Prod.mk.inj item
      rw [value_]
      exact hash
    · -- the value that is split off is shorter than the line it comes from
      obtain ⟨-, value_⟩ := Prod.mk.inj item
      have shorter := (trim_sublist value').length_le
      have whole := (trim_sublist (trim value)).length_le
      rw [here, List.length_append, List.length_cons] at whole
      rw [value_] at whole
      omega
  · intro hash
    obtain ⟨nothing, -⟩ | core_value := trimmed
    · rw [nothing] at hash
      cases hash
    · exact loadLine_comment core_value hash

theorem reload_comment {text : Bytes} (inner : Core text) (hash : text.head? = some HASH) :
    loadLine (itemLine ([], text)) = some ([], text) := by
  have written : itemLine ([], text) = text := if_pos rfl
  rw [written]
  exact loadLine_comment inner hash

theorem reload_iff (loaded : loadLine line = some i) :
    loadLine (itemLine i) = some i ↔ Survives line := by
  obtain ⟨text, inner, here, hash, rfl⟩ | ⟨key, value, inner, here, plain, no_hash, rfl⟩ :=
    loadLine_cases loaded
  · rw [iff_true_left (reload_comment inner hash), Survives, here, hash]
    intro no
    cases no
  · rw [Survives, here]
    cases key with
    | nil =>
      rw [List.nil_append, trim_nil, reload_keyless inner]
      exact ⟨fun hash _ => hash, fun survives => survives rfl⟩
    | cons c key =>
      have other : c ≠ EQUALS := fun same => plain (same ▸ List.mem_cons_self)
      rw [iff_true_left (reload_keyed inner plain no_hash (List.cons_ne_nil c key))]
      intro head
      exact absurd (Option.some.inj head) other

theorem survives_of_none (none_ : loadLine line = none) : Survives line := by
  intro equals
  rw [loadLine, equals] at none_
  obtain ⟨before, after, split_, plain⟩ := first_line (head_mem equals)
  rw [if_neg (by decide), split_, split_append plain] at none_
  cases none_

theorem itemLine_plain (loaded : loadLine line = some i) (plain : NEWLINE ∉ line) :
    NEWLINE ∉ itemLine i := by
  have trimmed : ∀ c, c ∈ trim line → c ∈ line := fun c mem => (trim_sublist line).subset mem
  obtain ⟨text, -, here, -, rfl⟩ | ⟨key, value, -, here, -, -, rfl⟩ := loadLine_cases loaded
  · rw [itemLine, if_pos rfl]
    exact fun mem => plain (trimmed _ (here ▸ mem))
  · have no_key : NEWLINE ∉ trim key := by
      intro mem
      apply plain (trimmed _ _)
      rw [here, List.mem_append]
      exact .inl ((trim_sublist key).subset mem)
    have no_value : NEWLINE ∉ trim value := by
      intro mem
      apply plain (trimmed _ _)
      rw [here, List.mem_append]
      exact .inr (List.mem_cons_of_mem _ ((trim_sublist value).subset mem))
    rw [itemLine]
    split
    · exact no_value
    · rw [List.mem_append, List.mem_cons, not_or, not_or]
      exact ⟨no_key, by decide, no_value⟩

theorem loadFrom_spec {s : Stream} {ls : List Bytes} (answers : Answers s ls) {rounds : Nat}
    (enough : ls.length < rounds) (items : List Item) :
    loadFrom rounds s items = some (items ++ ls.filterMap loadLine) := by
  induction ls generalizing s items rounds with
  | nil =>
    have ends : (readLine s).1 = none := answers 0
    obtain ⟨rounds, rfl⟩ := Nat.exists_eq_succ_of_ne_zero (Nat.ne_of_gt enough)
    rw [loadFrom, show readLine s = (none, (readLine s).2) from Prod.ext ends rfl]
    simp
  | cons line ls ih =>
    have first : (readLine s).1 = some line := answers 0
    have step : readLine s = (some line, (readLine s).2) := Prod.ext first rfl
    obtain ⟨rounds, rfl⟩ := Nat.exists_eq_succ_of_ne_zero (Nat.ne_of_gt (Nat.zero_lt_of_lt enough))
    have later : Answers (readLine s).2 ls := (answers_cons step ls).mp answers
    have fewer : ls.length < rounds := Nat.lt_of_succ_lt_succ enough
    rw [loadFrom, step]
    simp only
    rw [ih later fewer, List.append_assoc]
    cases item : loadLine line with
    | none => rw [List.filterMap_cons_none item, Option.toList_none, List.nil_append]
    | some i => rw [List.filterMap_cons_some item, Option.toList_some, List.singleton_append]

theorem load_spec (opType : OpType) {chunks : List Bytes} (some_ : ∀ buf ∈ chunks, buf ≠ [])
    (fits : Fits chunks) : load opType chunks =
      some ⟨opType, false, (lines NEWLINE chunks.flatten).filterMap loadLine⟩ := by
  have answers := (answers_iff_fits some_).mpr fits
  have enough : (lines NEWLINE chunks.flatten).length < chunks.flatten.length + 1 :=
    Nat.lt_succ_of_le (length_lines_le chunks.flatten)
  rw [load, loadFrom_spec answers enough []]
  rfl

theorem filterMap_eq_self_iff {α : Type} (f : α → Option α) (xs : List α) :
    xs.filterMap f = xs ↔ ∀ x ∈ xs, f x = some x := by
  induction xs with
  | nil => simp
  | cons x xs ih =>
    cases here : f x with
    | none =>
      have shorter := List.length_filterMap_le f xs
      constructor
      · intro same
        rw [List.filterMap_cons_none here] at same
        rw [same, List.length_cons] at shorter
        exact absurd shorter (Nat.not_succ_le_self _)
      · intro all
        have no := all x List.mem_cons_self
        rw [here] at no
        cases no
    | some y =>
      rw [List.filterMap_cons_some here, List.cons.injEq, ih, List.forall_mem_cons, here,
        Option.some.injEq]

theorem reload_items {ls : List Bytes} (plain : ∀ line ∈ ls, NEWLINE ∉ line) :
    let items := ls.filterMap loadLine
    (lines NEWLINE (items.flatMap fun i => itemLine i ++ [NEWLINE])).filterMap loadLine = items ↔
      ∀ line ∈ ls, Survives line := by
  intro items
  have loaded : ∀ i ∈ items, ∃ line ∈ ls, loadLine line = some i := by
    intro i mem
    exact List.mem_filterMap.mp mem
  have written : (lines NEWLINE (items.flatMap fun i => itemLine i ++ [NEWLINE])) =
      items.map itemLine := by
    rw [← List.flatMap_map itemLine fun line => line ++ [NEWLINE]]
    apply lines_rendered
    intro text mem
    obtain ⟨i, item, rfl⟩ := List.mem_map.mp mem
    obtain ⟨line, here, from_⟩ := loaded i item
    exact itemLine_plain from_ (plain line here)
  rw [written, List.filterMap_map, filterMap_eq_self_iff]
  constructor
  · intro back line here
    cases from_ : loadLine line with
    | none => exact survives_of_none from_
    | some i => exact (reload_iff from_).mp (back i (List.mem_filterMap.mpr ⟨line, here, from_⟩))
  · intro survive i mem
    obtain ⟨line, here, from_⟩ := loaded i mem
    exact (reload_iff from_).mpr (survive line here)

theorem round_trip_iff (chunks : List Bytes)
    (sizes : ∀ buf ∈ chunks, 1 ≤ buf.length ∧ buf.length ≤ CHUNK_SIZE) (fits : Fits chunks) :
    ∃ db content, load .RDWR chunks = some db ∧ db.writeToConfigFile = some content ∧
      ∀ opType chunks', (∀ buf ∈ chunks', 1 ≤ buf.length ∧ buf.length ≤ CHUNK_SIZE) →
        chunks'.flatten = content → Fits chunks' →
        ((∃ db', load opType chunks' = some db' ∧ db'.items = db.items ∧
          ∀ key, db'.get key = db.get key) ↔
        ∀ line ∈ lines NEWLINE chunks.flatten, Survives line) := by
  have some_ : ∀ buf ∈ chunks, buf ≠ [] := fun buf mem => List.ne_nil_of_length_pos (sizes buf mem).1
  refine ⟨_, _, load_spec .RDWR some_ fits, if_pos ⟨rfl, rfl⟩, ?_⟩
  intro opType chunks' sizes' written fits'
  have some_' : ∀ buf ∈ chunks', buf ≠ [] :=
    fun buf mem => List.ne_nil_of_length_pos (sizes' buf mem).1
  have plain : ∀ line ∈ lines NEWLINE chunks.flatten, NEWLINE ∉ line :=
    fun line mem => mem_lines_plain mem
  rw [load_spec opType some_' fits', written]
  refine Iff.trans ?_ (reload_items plain)
  constructor
  · intro ⟨db', loaded, same, _⟩
    cases loaded
    exact same
  · intro same
    refine ⟨_, rfl, same, ?_⟩
    intro key
    simp only [DB.get, same]

instance (line : Bytes) : Decidable (Survives line) := inferInstanceAs (Decidable (_ → _))

theorem round_trip_iff_small :
    let chunks : List Bytes := [[35, 32, 99, 10, 107, 32, 61], [32, 118, 61, 119, 32, 10, 120]]
    ∃ db content, load .RDWR chunks = some db ∧ db.writeToConfigFile = some content ∧
      ∀ opType chunks', (∀ buf ∈ chunks', 1 ≤ buf.length ∧ buf.length ≤ CHUNK_SIZE) →
        chunks'.flatten = content → Fits chunks' →
        ∃ db', load opType chunks' = some db' ∧ db'.items = db.items := by
  intro chunks
  have fits : Fits chunks := by
    rw [fits_iff_after, fitsAfter_cons, fitsAfter_cons]
    exact ⟨.inl (by decide), .inl (by decide), fitsAfter_nil⟩
  obtain ⟨db, content, loaded, written, back⟩ := round_trip_iff chunks (by decide) fits
  refine ⟨db, content, loaded, written, ?_⟩
  intro opType chunks' sizes' same fits'
  obtain ⟨db', reloaded, items, -⟩ := (back opType chunks' sizes' same fits').mpr (by decide)
  exact ⟨db', reloaded, items⟩

/-- The line `=v` is loaded as a value without a key, written without its `=`, and not
    loaded again. -/
theorem keyless_value_lost :
    (load .RDWR [[EQUALS, 118, NEWLINE]]).map DB.items = some [([], [118])] ∧
      (load .RDWR [[EQUALS, 118, NEWLINE]]).bind DB.writeToConfigFile = some [118, NEWLINE] ∧
      (load .RDWR [[118, NEWLINE]]).map DB.items = some [] := by
  decide +kernel

end ConfigFileDB
