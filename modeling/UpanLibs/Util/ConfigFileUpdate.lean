import UpanLibs.Util.ConfigFileDB

/-!
`set` and `remove` of the class `ConfigFileDB`. Both take an item with an empty key for a
comment, but a line that starts with `=` leaves such an item with a value, too.
-/
namespace ConfigFileDB
open StringText

inductive Fault where
  | keyEmpty
  | openFailed
  deriving DecidableEq

/-- The loop of `set` behind the items `before`, to the last of which `prevIt` points. -/
def setFrom (key value commentLine : Bytes) (before : List Item) : List Item → Option (List Item)
  | [] => none
  | item :: rest =>
    if item.1 = key then
      let item := (item.1, value)
      if commentLine ≠ [] then
        match before.getLast? with
        | some prevItem =>
          if prevItem.1 = [] then
            some (before.dropLast ++ (prevItem.1, commentLine) :: item :: rest)
          else some (before ++ ([], commentLine) :: item :: rest)
        | none => some (([], commentLine) :: (before ++ item :: rest))
      else some (before ++ item :: rest)
    else setFrom key value commentLine (before ++ [item]) rest

def removeFrom (key : Bytes) (before : List Item) : List Item → Option (List Item)
  | [] => none
  | item :: rest =>
    if item.1 = key then
      match before.getLast? with
      | some prevItem => if prevItem.1 = [] then some (before.dropLast ++ rest)
          else some (before ++ rest)
      | none => some (before ++ rest)
    else removeFrom key (before ++ [item]) rest

namespace DB

/-- The end of both methods; `writable` is whether the file opens for writing. -/
def written (writable : Bool) (db : DB) : Except Fault (Option Bytes) :=
  match db.writeToConfigFile with
  | some content => if writable then .ok (some content) else .error .openFailed
  | none => .ok none

def set (writable : Bool) (key value comment : Bytes) (db : DB) :
    DB × Except Fault (Option Bytes) :=
  if key = [] then (db, .error .keyEmpty)
  else
    let commentLine := if comment ≠ [] then HASH :: comment else []
    let items := match setFrom key value commentLine [] db.items with
      | some items => items
      | none =>
        db.items ++ (if commentLine ≠ [] then [([], commentLine)] else []) ++ [(key, value)]
    let db := { db with items := items }
    (db, db.written writable)

def remove (writable : Bool) (key : Bytes) (db : DB) : DB × Except Fault (Option Bytes) :=
  if key = [] then (db, .error .keyEmpty)
  else match removeFrom key [] db.items with
    | some items =>
      let db := { db with items := items }
      (db, db.written writable)
    | none => (db, .ok none)

end DB

/-- A comment, as loading and `set` make it. -/
def IsComment (i : Item) : Prop := i.1 = [] ∧ i.2.head? = some HASH

instance (i : Item) : Decidable (IsComment i) := inferInstanceAs (Decidable (_ ∧ _))

/-- The first item with the key, with the comment directly in front of it, if there is one. -/
structure At (key : Bytes) (items front : List Item) (comment : Option Item) (value : Bytes)
    (after : List Item) : Prop where
  shape : items = front ++ comment.toList ++ (key, value) :: after
  first : ∀ i ∈ front, i.1 ≠ key
  written : ∀ c ∈ comment, IsComment c
  alone : comment = none → ∀ i ∈ front.getLast?, ¬ IsComment i

def Absent (key : Bytes) (items : List Item) : Prop := ∀ i ∈ items, i.1 ≠ key

/-- The key has the value, the comment is the one in front of it, and nothing else changes. -/
structure Sets (key value comment : Bytes) (db db' : DB) : Prop where
  found : db'.get key = some value
  others : ∀ k, k ≠ key → db'.get k = db.get k
  updated : ∀ front old v after, At key db.items front old v after →
    db'.items = front ++ ([], HASH :: comment) :: (key, value) :: after
  added : Absent key db.items →
    db'.items = db.items ++ [([], HASH :: comment), (key, value)]

/-- The key is gone with the comment in front of it, and nothing else changes. -/
structure Removes (key : Bytes) (db db' : DB) : Prop where
  gone : db'.get key = none
  others : ∀ k, k ≠ key → db'.get k = db.get k
  removed : ∀ front old v after, At key db.items front old v after → db'.items = front ++ after
  kept : Absent key db.items → db'.items = db.items

/-- No value without a key stands directly in front of the first item with the key. -/
def KeepsValues (key : Bytes) (items : List Item) : Prop :=
  Absent key items ∨
    ∀ i ∈ (items.takeWhile fun i => i.1 ≠ key).getLast?, i.1 = [] → IsComment i

instance (key : Bytes) (items : List Item) : Decidable (Absent key items) :=
  inferInstanceAs (Decidable (∀ i ∈ items, _))

instance (key : Bytes) (items : List Item) : Decidable (KeepsValues key items) :=
  inferInstanceAs (Decidable (_ ∨ ∀ i ∈ (items.takeWhile _).getLast?, _))

variable {key value commentLine v : Bytes} {items front before after : List Item}
  {old : Option Item}

theorem exists_first (here : ¬ Absent key items) :
    ∃ before value after, items = before ++ (key, value) :: after ∧ Absent key before := by
  induction items with
  | nil => exact absurd (fun i mem => by cases mem) here
  | cons i items ih =>
    by_cases same : i.1 = key
    · exact ⟨[], i.2, items, by rw [← same]; rfl, fun j mem => by cases mem⟩
    · have later : ¬ Absent key items :=
        fun absent => here (List.forall_mem_cons.mpr ⟨same, absent⟩)
      obtain ⟨before, value, after, rfl, absent⟩ := ih later
      exact ⟨i :: before, value, after, rfl, List.forall_mem_cons.mpr ⟨same, absent⟩⟩

theorem exists_at (here : ¬ Absent key items) :
    ∃ front comment value after, At key items front comment value after := by
  obtain ⟨before, value, after, rfl, absent⟩ := exists_first here
  rcases List.eq_nil_or_concat before with rfl | ⟨front, last, rfl⟩
  · exact ⟨[], none, value, after, rfl, absent, nofun, fun _ => nofun⟩
  · rw [List.concat_eq_append] at absent ⊢
    by_cases comment : IsComment last
    · refine ⟨front, some last, value, after, rfl, fun i mem => absent i (by simp [mem]), ?_, nofun⟩
      rintro c ⟨⟩
      exact comment
    · refine ⟨front ++ [last], none, value, after, by simp, absent, nofun, fun _ i mem => ?_⟩
      simp at mem
      exact mem ▸ comment

theorem At.in_front (at_ : At key items front old v after) (some_ : key ≠ []) :
    Absent key (front ++ old.toList) := by
  intro i mem
  rcases List.mem_append.mp mem with front_ | comment
  · exact at_.first i front_
  · rw [(at_.written i (by simpa using comment)).1]
    exact some_.symm

theorem takeWhile_first (v : Bytes) (after : List Item) (absent : Absent key before) :
    (before ++ (key, v) :: after).takeWhile (fun i => i.1 ≠ key) = before := by
  induction before with
  | nil => simp
  | cons i before ih =>
    obtain ⟨other, absent⟩ := List.forall_mem_cons.mp absent
    simpa [other] using ih absent

def kept (before : List Item) : List Item :=
  match before.getLast? with
  | some i => if i.1 = [] then before.dropLast else before
  | none => before

theorem kept_append (before : List Item) :
    ∃ dropped, before = kept before ++ dropped ∧ ∀ i ∈ dropped, i.1 = [] := by
  rcases List.eq_nil_or_concat before with rfl | ⟨front, last, rfl⟩
  · exact ⟨[], rfl, nofun⟩
  · rw [List.concat_eq_append]
    by_cases keyless : last.1 = []
    · exact ⟨[last], by simp [kept, keyless], by simpa using keyless⟩
    · exact ⟨[], by simp [kept, keyless], nofun⟩

theorem At.kept_eq_iff (at_ : At key items front old v after) (some_ : key ≠ []) :
    kept (front ++ old.toList) = front ↔ KeepsValues key items := by
  have first := takeWhile_first v after (at_.in_front some_)
  have here : ¬ Absent key items := by
    intro absent
    refine absent (key, v) ?_ rfl
    rw [at_.shape]
    simp
  rw [KeepsValues, or_iff_right here, at_.shape, first]
  cases old with
  | some c =>
    have comment := at_.written c rfl
    simp [kept, comment.1, comment]
  | none =>
    have alone := at_.alone rfl
    rw [Option.toList_none, List.append_nil]
    rcases List.eq_nil_or_concat front with rfl | ⟨front, last, rfl⟩
    · simp [kept]
    · rw [List.concat_eq_append] at alone ⊢
      have value := alone last (by simp)
      by_cases keyless : last.1 = []
      · simp [kept, keyless, value]
      · simp [kept, keyless]

theorem setFrom_skip (key value commentLine : Bytes) {before front rest : List Item}
    (absent : Absent key front) : setFrom key value commentLine before (front ++ rest) =
      setFrom key value commentLine (before ++ front) rest := by
  induction front generalizing before with
  | nil => simp
  | cons i front ih =>
    obtain ⟨other, absent⟩ := List.forall_mem_cons.mp absent
    rw [List.cons_append, setFrom, if_neg other, ih absent, List.append_assoc]
    rfl

theorem removeFrom_skip (key : Bytes) {before front rest : List Item} (absent : Absent key front) :
    removeFrom key before (front ++ rest) = removeFrom key (before ++ front) rest := by
  induction front generalizing before with
  | nil => simp
  | cons i front ih =>
    obtain ⟨other, absent⟩ := List.forall_mem_cons.mp absent
    rw [List.cons_append, removeFrom, if_neg other, ih absent, List.append_assoc]
    rfl

theorem setFrom_absent (absent : Absent key items) :
    setFrom key value commentLine [] items = none := by
  rw [← List.append_nil items, setFrom_skip key value commentLine absent]
  rfl

theorem removeFrom_absent (absent : Absent key items) : removeFrom key [] items = none := by
  rw [← List.append_nil items, removeFrom_skip key absent]
  rfl

theorem setFrom_first (v : Bytes) (after : List Item) (absent : Absent key before)
    (comment : commentLine ≠ []) :
    setFrom key value commentLine [] (before ++ (key, v) :: after) =
      some (kept before ++ ([], commentLine) :: (key, value) :: after) := by
  rw [setFrom_skip key value commentLine absent, List.nil_append, setFrom, if_pos rfl]
  simp only [if_pos comment, kept]
  cases last : before.getLast? with
  | none =>
    rw [List.getLast?_eq_none_iff.mp last]
    rfl
  | some i =>
    simp only
    split
    next keyless => rw [keyless]
    next => rfl

theorem removeFrom_first (v : Bytes) (after : List Item) (absent : Absent key before) :
    removeFrom key [] (before ++ (key, v) :: after) = some (kept before ++ after) := by
  rw [removeFrom_skip key absent, List.nil_append, removeFrom, if_pos rfl, kept]
  cases before.getLast? with
  | none => rfl
  | some i =>
    simp only
    split <;> rfl

theorem find_absent (absent : Absent key items) : items.find? (fun i => i.1 == key) = none := by
  rw [List.find?_eq_none]
  intro i mem
  simpa using absent i mem

theorem find_skip (mid : List Item) (absent : Absent key mid) :
    (front ++ (mid ++ after)).find? (fun i => i.1 == key) =
      (front ++ after).find? (fun i => i.1 == key) := by
  rw [List.find?_append, List.find?_append, List.find?_append, find_absent absent]
  simp

theorem get_of_absent (db : DB) (absent : Absent key db.items) : db.get key = none := by
  unfold DB.get
  rw [find_absent absent]
  simp

theorem get_congr {db db' : DB} (same : db'.items.find? (fun i => i.1 == key) =
    db.items.find? (fun i => i.1 == key)) : db'.get key = db.get key := by
  unfold DB.get
  rw [same]

theorem get_first {db : DB} (before after : List Item) (some_ : key ≠ [])
    (items : db.items = before ++ (key, v) :: after) (absent : Absent key before) :
    db.get key = some v := by
  unfold DB.get
  rw [if_pos some_, items, List.find?_append, find_absent absent]
  simp

theorem get_nil (db : DB) : db.get [] = none := if_neg (not_not.mpr rfl)

theorem others_same {db db' : DB} (front mid mid' after : List Item) {k : Bytes}
    (items : db.items = front ++ (mid ++ after)) (items' : db'.items = front ++ (mid' ++ after))
    (own : ∀ i ∈ mid, i.1 = [] ∨ i.1 = key) (own' : ∀ i ∈ mid', i.1 = [] ∨ i.1 = key)
    (other : k ≠ key) : db'.get k = db.get k := by
  by_cases some_ : k = []
  · rw [some_, get_nil, get_nil]
  · have absent (mid : List Item) (own : ∀ i ∈ mid, i.1 = [] ∨ i.1 = key) : Absent k mid := by
      intro i mem same
      rcases own i mem with keyless | here
      · exact some_ (same.symm.trans keyless)
      · exact other (same.symm.trans here)
    apply get_congr
    rw [items, items', find_skip mid (absent mid own), find_skip mid' (absent mid' own')]

theorem not_absent (at_ : At key items front old v after) : ¬ Absent key items := by
  intro absent
  refine absent (key, v) ?_ rfl
  rw [at_.shape]
  simp

variable {comment : Bytes}

theorem set_items_at (db : DB) (writable : Bool) (value : Bytes) (some_ : key ≠ [])
    (commented : comment ≠ []) (at_ : At key db.items front old v after) :
    (db.set writable key value comment).1.items =
      kept (front ++ old.toList) ++ ([], HASH :: comment) :: (key, value) :: after := by
  have line : HASH :: comment ≠ [] := List.cons_ne_nil _ _
  have items : setFrom key value (HASH :: comment) [] (front ++ old.toList ++ (key, v) :: after) =
      some (kept (front ++ old.toList) ++ ([], HASH :: comment) :: (key, value) :: after) :=
    setFrom_first v after (at_.in_front some_) line
  rw [← at_.shape] at items
  unfold DB.set
  simp only [if_neg some_, if_pos commented, items]

theorem set_items_absent (db : DB) (writable : Bool) (value : Bytes) (some_ : key ≠ [])
    (commented : comment ≠ []) (absent : Absent key db.items) :
    (db.set writable key value comment).1.items =
      db.items ++ [([], HASH :: comment), (key, value)] := by
  have line : HASH :: comment ≠ [] := List.cons_ne_nil _ _
  unfold DB.set
  simp only [if_neg some_, if_pos commented, if_pos line, setFrom_absent absent]
  simp

theorem remove_items_at (db : DB) (writable : Bool) (some_ : key ≠ [])
    (at_ : At key db.items front old v after) :
    (db.remove writable key).1.items = kept (front ++ old.toList) ++ after := by
  have items := removeFrom_first v after (at_.in_front some_)
  rw [← at_.shape] at items
  unfold DB.remove
  simp only [if_neg some_, items]

theorem remove_items_absent (db : DB) (writable : Bool) (absent : Absent key db.items) :
    (db.remove writable key).1.items = db.items := by
  unfold DB.remove
  rw [removeFrom_absent absent]
  split <;> rfl

/-- The values under other keys do not depend on what is put in the place of the key's item
    and of the items without a key in front of it. -/
theorem others_kept {db db' : DB} (at_ : At key db.items front old v after) (mid : List Item)
    (items : db'.items = kept (front ++ old.toList) ++ (mid ++ after))
    (own : ∀ i ∈ mid, i.1 = [] ∨ i.1 = key) {k : Bytes} (other : k ≠ key) :
    db'.get k = db.get k := by
  obtain ⟨dropped, split_, keyless⟩ := kept_append (front ++ old.toList)
  have shape := at_.shape
  rw [split_] at shape
  refine others_same _ (dropped ++ [(key, v)]) mid after (by rw [shape]; simp) items ?_ own other
  intro i mem
  rcases List.mem_append.mp mem with here | here
  · exact .inl (keyless i here)
  · rw [List.mem_singleton.mp here]
    exact .inr rfl

theorem set_sets_iff (db : DB) (writable : Bool) (some_ : key ≠ []) (commented : comment ≠ []) :
    Sets key value comment db (db.set writable key value comment).1 ↔
      KeepsValues key db.items := by
  have own : ∀ i ∈ [([], HASH :: comment), (key, value)], i.1 = [] ∨ i.1 = key := by simp
  by_cases absent : Absent key db.items
  · have items := set_items_absent db writable value some_ commented absent
    refine iff_of_true ⟨?_, fun k other => ?_,
      fun front old v after at_ => absurd absent (not_absent at_), fun _ => items⟩ (.inl absent)
    · refine get_first (db.items ++ [([], HASH :: comment)]) [] some_
        (by rw [items]; simp) ?_
      exact List.forall_mem_append.mpr ⟨absent, by simpa using some_.symm⟩
    · exact others_same db.items [] _ [] (by simp) (by rw [items]; simp) nofun own other
  · have items {front old v after} (at_ : At key db.items front old v after) :=
      set_items_at db writable value some_ commented at_
    obtain ⟨front, old, v, after, at_⟩ := exists_at absent
    constructor
    · intro sets
      have updated := sets.updated front old v after at_
      rw [items at_] at updated
      exact (at_.kept_eq_iff some_).mp (List.append_cancel_right updated)
    · intro keeps
      refine ⟨?_, fun k other => ?_, fun front old v after at_ => ?_, fun here => absurd here absent⟩
      · refine get_first (kept (front ++ old.toList) ++ [([], HASH :: comment)]) after some_
          (by rw [items at_]; simp) ?_
        obtain ⟨dropped, split_, -⟩ := kept_append (front ++ old.toList)
        refine List.forall_mem_append.mpr ⟨fun i mem => ?_, by simpa using some_.symm⟩
        exact at_.in_front some_ i (split_ ▸ List.mem_append_left _ mem)
      · exact others_kept at_ [([], HASH :: comment), (key, value)] (items at_) own other
      · rw [items at_, (at_.kept_eq_iff some_).mpr keeps]

def mentions (key : Bytes) (items : List Item) : Nat := (items.map Prod.fst).count key

theorem mentions_zero : mentions key items = 0 ↔ Absent key items := by
  rw [mentions, List.count_eq_zero]
  constructor
  · intro none_ i mem same
    exact none_ (List.mem_map.mpr ⟨i, mem, same⟩)
  · intro absent mem
    obtain ⟨i, here, same⟩ := List.mem_map.mp mem
    exact absent i here same

theorem At.mentions (at_ : At key items front old v after) (some_ : key ≠ []) :
    mentions key items = mentions key after + 1 := by
  have none_ := mentions_zero.mpr (at_.in_front some_)
  rw [ConfigFileDB.mentions] at none_ ⊢
  rw [at_.shape, List.map_append, List.count_append, none_]
  simp [ConfigFileDB.mentions]

theorem remove_removes_iff (db : DB) (writable : Bool) (some_ : key ≠ []) :
    Removes key db (db.remove writable key).1 ↔
      mentions key db.items ≤ 1 ∧ KeepsValues key db.items := by
  by_cases absent : Absent key db.items
  · have items := remove_items_absent db writable absent
    refine iff_of_true ⟨?_, fun k _ => get_congr (by rw [items]),
      fun front old v after at_ => absurd absent (not_absent at_), fun _ => items⟩
      ⟨?_, .inl absent⟩
    · exact get_of_absent _ (items ▸ absent)
    · rw [mentions_zero.mpr absent]
      exact Nat.zero_le 1
  · have items {front old v after} (at_ : At key db.items front old v after) :=
      remove_items_at db writable some_ at_
    obtain ⟨front, old, v, after, at_⟩ := exists_at absent
    obtain ⟨dropped, split_, -⟩ := kept_append (front ++ old.toList)
    have early : Absent key (kept (front ++ old.toList)) :=
      fun i mem => at_.in_front some_ i (split_ ▸ List.mem_append_left _ mem)
    rw [at_.mentions some_]
    constructor
    · intro removes
      constructor
      · by_contra more
        have later : ¬ Absent key after := by
          rw [← mentions_zero]
          omega
        obtain ⟨before, v', after', rfl, first⟩ := exists_first later
        have found : (db.remove writable key).1.get key = some v' := by
          refine get_first (kept (front ++ old.toList) ++ before) after' some_
            (by rw [items at_]; simp) ?_
          exact List.forall_mem_append.mpr ⟨early, first⟩
        rw [removes.gone] at found
        cases found
      · have removed := removes.removed front old v after at_
        rw [items at_] at removed
        exact (at_.kept_eq_iff some_).mp (List.append_cancel_right removed)
    · rintro ⟨once, keeps⟩
      have last : Absent key after := by
        rw [← mentions_zero]
        omega
      refine ⟨get_of_absent _ ?_, fun k other => ?_, fun front old v after at_ => ?_,
        fun here => absurd here absent⟩
      · rw [items at_]
        exact List.forall_mem_append.mpr ⟨early, last⟩
      · exact others_kept at_ [] (items at_) nofun other
      · rw [items at_, (at_.kept_eq_iff some_).mpr keeps]

/-- For all items: `set` and `remove` do what they should exactly for a key that the items do not
    mention more than once, behind no value without a key. -/
theorem set_and_remove_iff (db : DB) (writable : Bool) (key value comment : Bytes)
    (some_ : key ≠ []) (commented : comment ≠ []) :
    Sets key value comment db (db.set writable key value comment).1 ∧
      Removes key db (db.remove writable key).1 ↔
        mentions key db.items ≤ 1 ∧ KeepsValues key db.items := by
  rw [remove_removes_iff db writable some_, set_sets_iff db writable some_ commented]
  exact and_iff_right_of_imp And.right

theorem set_and_remove_iff_small :
    ∃ db, load .RDWR [[35, 99, 10, 107, 61, 49, 10, 106, 61, 50, 10]] = some db ∧
      Sets [107] [51] [100] db (db.set true [107] [51] [100]).1 ∧
      Removes [107] db (db.remove true [107]).1 := by
  have loaded : (load .RDWR [[35, 99, 10, 107, 61, 49, 10, 106, 61, 50, 10]]).map DB.items =
      some [([], [35, 99]), ([107], [49]), ([106], [50])] := by decide +kernel
  obtain ⟨db, here, items⟩ := Option.map_eq_some_iff.mp loaded
  refine ⟨db, here, ?_⟩
  exact (set_and_remove_iff db true [107] [51] [100] (by decide) (by decide)).mpr
    (by rw [items]; decide)

/-- A file with the lines `k=1` and `k=2` still has the key after `remove`. -/
theorem remove_leaves_second : ∃ db, load .RDWR [[107, 61, 49, 10, 107, 61, 50, 10]] = some db ∧
    ¬ Removes [107] db (db.remove true [107]).1 := by
  have loaded : (load .RDWR [[107, 61, 49, 10, 107, 61, 50, 10]]).map DB.items =
      some [([107], [49]), ([107], [50])] := by decide +kernel
  obtain ⟨⟨opType, batchWrite, items⟩, here, rfl⟩ := Option.map_eq_some_iff.mp loaded
  refine ⟨_, here, fun removes => ?_⟩
  have found : ((⟨opType, batchWrite, [([107], [49]), ([107], [50])]⟩ : DB).remove true
      [107]).1.get [107] = some [50] := rfl
  rw [removes.gone] at found
  cases found

end ConfigFileDB
