import UpanLibs.Ds.AvlTreeMap

/-!
The environment store `Env`. Keys and values are C strings, lists of bytes without the final
zero; the map is answered as `map` answers it, which is a list in the order of the keys.
-/
namespace EnvStore
open AvlTree

abbrev Text := List UInt8

/-- `strcmp` is below zero; it compares the bytes without sign. -/
def strcmpLess : Text → Text → Bool
  | _, [] => false
  | [], _ :: _ => true
  | a :: as, b :: bs => if a = b then strcmpLess as bs else a < b

theorem strcmpLess_irrefl (a : Text) : strcmpLess a a = false := by
  induction a with
  | nil => rfl
  | cons c a ih => simp [strcmpLess, ih]

theorem strcmpLess_trans {a b c : Text} (first : strcmpLess a b = true)
    (second : strcmpLess b c = true) : strcmpLess a c = true := by
  induction a generalizing b c with
  | nil =>
    cases c with
    | nil => cases b <;> simp [strcmpLess] at second
    | cons => rfl
  | cons x a ih =>
    cases b with
    | nil => simp [strcmpLess] at first
    | cons y b =>
      cases c with
      | nil => simp [strcmpLess] at second
      | cons z c =>
        simp only [strcmpLess] at *
        grind

theorem strcmpLess_cotrans {a c : Text} (b : Text) (less : strcmpLess a c = true) :
    strcmpLess a b = true ∨ strcmpLess b c = true := by
  induction a generalizing b c with
  | nil =>
    cases b with
    | nil => exact .inr less
    | cons => exact .inl rfl
  | cons x a ih =>
    cases c with
    | nil => simp [strcmpLess] at less
    | cons z c =>
      cases b with
      | nil => exact .inr rfl
      | cons y b =>
        simp only [strcmpLess] at *
        grind

theorem strcmpLess_total {a b : Text} (notLess : strcmpLess a b = false)
    (notMore : strcmpLess b a = false) : a = b := by
  induction a generalizing b with
  | nil => cases b <;> simp_all [strcmpLess]
  | cons x a ih =>
    cases b with
    | nil => simp [strcmpLess] at notMore
    | cons y b =>
      simp only [strcmpLess] at *
      grind

def envMap : CType (Text × Text) Text where
  getKey := Prod.fst
  less := strcmpLess
  irrefl := strcmpLess_irrefl
  trans := strcmpLess_trans
  cotrans := strcmpLess_cotrans

structure Env where
  environUpdatedTime : Int
  envModifiedTime : Int
  environ : Option (List Text)
  map : List (Text × Text)
  deriving DecidableEq, Repr

def equals : UInt8 := 61

def sizeofPointer : Nat := 8

/-- A pointer is written to a place of an array of which `block` bytes are allocated. -/
def putPointer (block i : Nat) : Option Unit :=
  if (i + 1) * sizeofPointer ≤ block then some () else none

/-- `sprintf` into the block allocated for the entry. -/
def printEntry (e : Text × Text) : Option Text :=
  let text := e.1 ++ equals :: e.2
  if text.length + 1 ≤ e.1.length + e.2.length + 2 then some text else none

/-- The loop of `environ` from the place `i` on, and the null pointer behind the entries;
    nothing is written outside a block. -/
def fillEnviron (block : Nat) : Nat → List (Text × Text) → Option (List Text)
  | i, [] => do
    putPointer block i
    some []
  | i, e :: es => do
    putPointer block i
    let text ← printEntry e
    let rest ← fillEnviron block (i + 1) es
    some (text :: rest)

namespace Env

def create (btime : Int) : Env := ⟨0, btime, none, []⟩

def get (key : Text) (s : Env) : Option Text := (lookup envMap s.map key).map Prod.snd

def set (key : Option Text) (value : Text) (overwrite : Bool) (btime : Int) (s : Env) :
    Env × Int :=
  match key with
  | none => (s, -1)
  | some key =>
      if key.length = 0 then (s, -1)
      else if equals ∈ key then (s, -1)
      else
        match lookup envMap s.map key with
        | some _ =>
            if overwrite then
              let map := s.map.map fun e => if envMap.same key e.1 then (e.1, value) else e
              ({ s with map := add envMap map (key, value), envModifiedTime := btime }, 0)
            else (s, 0)
        | none => ({ s with map := add envMap s.map (key, value), envModifiedTime := btime }, 0)

def unset (key : Text) (btime : Int) (s : Env) : Env :=
  if (lookup envMap s.map key).isSome then
    { s with map := without envMap s.map key, envModifiedTime := btime }
  else s

def clear (btime : Int) (s : Env) : Env :=
  { s with environ := none, map := [], envModifiedTime := btime }

/-- The array is allocated with as many bytes as there are entries, and one. -/
def rebuild (s : Env) : Option (Env × List Text) := do
  let array ← fillEnviron (s.map.length + 1) 0 s.map
  some ({ s with environ := some array, environUpdatedTime := s.envModifiedTime }, array)

def getEnviron (s : Env) : Option (Env × List Text) :=
  match s.environ with
  | none => s.rebuild
  | some array =>
      if s.environUpdatedTime ≠ s.envModifiedTime then s.rebuild else some (s, array)

end Env

inductive Call where
  | get (key : Text)
  | set (key : Option Text) (value : Text) (overwrite : Bool)
  | unset (key : Text)
  | clear
  | environ
  deriving DecidableEq, Repr

inductive Reply where
  | value (v : Option Text)
  | result (r : Int)
  | done
  | array (entries : List Text)
  deriving DecidableEq, Repr

def step (s : Env) (btime : Int) : Call → Option (Env × Reply)
  | .get key => some (s, .value (s.get key))
  | .set key value overwrite =>
      let (s, r) := s.set key value overwrite btime
      some (s, .result r)
  | .unset key => some (s.unset key btime, .done)
  | .clear => some (s.clear btime, .done)
  | .environ => s.getEnviron.map fun (s, array) => (s, .array array)

/-- A key that `setenv` takes. -/
def Named (key : Option Text) : Prop := ∃ k, key = some k ∧ k.length ≠ 0 ∧ equals ∉ k

def after (m : Text → Option Text) : Call → Text → Option Text
  | .set (some key) value overwrite =>
      if key.length = 0 ∨ equals ∈ key ∨ (m key).isSome ∧ overwrite = false then m
      else Function.update m key (some value)
  | .unset key => Function.update m key none
  | .clear => fun _ => none
  | .set none _ _ | .get _ | .environ => m

def entry (e : Text × Text) : Text := e.1 ++ equals :: e.2

def Answered (m : Text → Option Text) : Call → Reply → Prop
  | .get key, .value v => v = m key
  | .set key _ _, .result r => (Named key → r = 0) ∧ (¬ Named key → r = -1)
  | .unset _, .done | .clear, .done => True
  | .environ, .array entries => ∃ l, Ascending envMap l ∧
      (∀ key, (lookup envMap l key).map Prod.snd = m key) ∧ entries = l.map entry
  | _, _ => False

/-- Every call is answered, and as the finite map answers it. -/
def Right : (Text → Option Text) → Env → List (Int × Call) → Prop
  | _, _, [] => True
  | m, s, (btime, call) :: rest => ∃ s' reply, step s btime call = some (s', reply) ∧
      Answered m call reply ∧ Right (after m call) s' rest

theorem same_iff {a b : Text} : envMap.same a b = true ↔ a = b := by
  constructor
  · intro same
    simp only [CType.same, Bool.and_eq_true, Bool.not_eq_true'] at same
    exact strcmpLess_total same.1 same.2
  · rintro rfl
    simp [CType.same, envMap, strcmpLess_irrefl]

def valueAt (map : List (Text × Text)) (key : Text) : Option Text :=
  (lookup envMap map key).map Prod.snd

theorem lookup_eq (map : List (Text × Text)) (key : Text) :
    lookup envMap map key = map.find? fun e => key = e.1 := by
  unfold lookup
  congr
  funext e
  rw [Bool.eq_iff_iff, same_iff, decide_eq_true_eq]
  rfl

theorem find_side (side : Text → Bool) (map : List (Text × Text)) (k : Text) :
    map.find? (fun e => decide (side e.1 = true ∧ decide (k = e.1) = true)) =
      if side k then map.find? (fun e => k = e.1) else none := by
  split
  next on =>
    congr
    funext e
    by_cases same : k = e.1
    · subst same
      simp [on]
    · simp [same]
  next off =>
    rw [List.find?_eq_none]
    rintro e - found
    simp only [decide_eq_true_eq] at found
    exact off (found.2 ▸ found.1)

theorem valueAt_put (map : List (Text × Text)) (key value : Text) :
    valueAt (put envMap map (key, value)) = Function.update (valueAt map) key (some value) := by
  funext k
  have getKey (e : Text × Text) : envMap.getKey e = e.1 := rfl
  have low := find_side (fun t => envMap.less t key) map k
  have high := find_side (fun t => envMap.less key t) map k
  unfold valueAt put
  simp only [lookup_eq, List.find?_append, List.find?_cons, List.find?_filter, getKey, low, high]
  by_cases same : k = key
  · subst same
    simp [envMap.irrefl]
  · rw [Function.update_of_ne same]
    simp only [same, decide_false]
    by_cases less : envMap.less k key = true
    · have notMore : envMap.less key k = false := envMap.asymm less
      simp [less, notMore]
    · have more : envMap.less key k = true := by
        by_contra other
        exact same (strcmpLess_total (Bool.eq_false_iff.mpr less) (Bool.eq_false_iff.mpr other))
      simp [less, more]

theorem valueAt_add (map : List (Text × Text)) (key value : Text) :
    valueAt (add envMap map (key, value)) =
      if (valueAt map key).isSome then valueAt map
      else Function.update (valueAt map) key (some value) := by
  have present : (lookup envMap map (envMap.getKey (key, value))).isSome =
      (valueAt map key).isSome := (Option.isSome_map ..).symm
  rw [add, present]
  split
  · rfl
  · exact valueAt_put map key value

theorem valueAt_without (map : List (Text × Text)) (key : Text) :
    valueAt (without envMap map key) = Function.update (valueAt map) key none := by
  funext k
  have getKey (e : Text × Text) : envMap.getKey e = e.1 := rfl
  have rest := find_side (fun t => !envMap.same key t) map k
  unfold valueAt without
  simp only [lookup_eq, List.find?_filter, getKey, rest]
  by_cases same : k = key
  · subst same
    simp [same_iff.mpr rfl]
  · have other : envMap.same key k = false := by
      rw [Bool.eq_false_iff]
      exact fun equal => same (same_iff.mp equal).symm
    simp [other, same]

theorem valueAt_overwrite {map : List (Text × Text)} {key : Text} (value : Text)
    (present : (valueAt map key).isSome) :
    valueAt (map.map fun e => if envMap.same key e.1 then (e.1, value) else e) =
      Function.update (valueAt map) key (some value) := by
  funext k
  have keys : ((fun e : Text × Text => decide (k = e.1)) ∘
      fun e => if envMap.same key e.1 then (e.1, value) else e) = fun e => decide (k = e.1) := by
    funext e
    simp only [Function.comp]
    split <;> rfl
  unfold valueAt at present ⊢
  simp only [lookup_eq, List.find?_map, keys] at present ⊢
  by_cases same : k = key
  · subst same
    rw [Option.isSome_map] at present
    obtain ⟨e, found⟩ := Option.isSome_iff_exists.mp present
    have key : k = e.1 := by simpa using List.find?_some found
    simp [found, same_iff.mpr key]
  · rw [Function.update_of_ne same, Option.map_map]
    cases found : map.find? (fun e => decide (k = e.1)) with
    | none => rfl
    | some e =>
      have here : k = e.1 := by simpa using List.find?_some found
      have other : envMap.same key e.1 = false := by
        rw [Bool.eq_false_iff]
        exact fun equal => same (here.trans (same_iff.mp equal).symm)
      simp [other]

theorem fillEnviron_none {block i : Nat} {map : List (Text × Text)}
    (short : block < (i + map.length + 1) * sizeofPointer) :
    fillEnviron block i map = none := by
  induction map generalizing i with
  | nil =>
    have outside : ¬ (i + 1) * sizeofPointer ≤ block := by simpa using short
    simp [fillEnviron, putPointer, outside]
  | cons e es ih =>
    have rest : fillEnviron block (i + 1) es = none := by
      apply ih
      rw [List.length_cons] at short
      rwa [show i + 1 + es.length + 1 = i + (es.length + 1) + 1 by omega]
    simp [fillEnviron, rest]

theorem rebuild_none (s : Env) : s.rebuild = none := by
  have short : s.map.length + 1 < (0 + s.map.length + 1) * sizeofPointer := by
    unfold sizeofPointer
    omega
  simp [Env.rebuild, fillEnviron_none short]

theorem valueAt_set (s : Env) (key value : Text) (overwrite : Bool) (btime : Int)
    (named : key.length ≠ 0 ∧ equals ∉ key) :
    valueAt (s.set (some key) value overwrite btime).1.map =
      after (valueAt s.map) (.set (some key) value overwrite) ∧
    (s.set (some key) value overwrite btime).2 = 0 := by
  have present : (lookup envMap s.map key).isSome = (valueAt s.map key).isSome :=
    (Option.isSome_map ..).symm
  simp only [Env.set, after, named.1, named.2, if_false, false_or]
  cases found : lookup envMap s.map key with
  | none =>
    rw [found] at present
    simp [valueAt_add, ← present]
  | some e =>
    rw [found] at present
    cases overwrite with
    | false => simp [← present]
    | true =>
      have written := valueAt_overwrite value present.symm
      simp [valueAt_add, written]

theorem step_spec {s : Env} {call : Call} (btime : Int) (other : call ≠ .environ)
    (fresh : s.environ = none) : ∃ s' reply, step s btime call = some (s', reply) ∧
      Answered (valueAt s.map) call reply ∧ valueAt s'.map = after (valueAt s.map) call ∧
      s'.environ = none := by
  cases call with
  | environ => exact absurd rfl other
  | get key => exact ⟨s, _, rfl, rfl, rfl, fresh⟩
  | clear =>
    refine ⟨_, _, rfl, trivial, ?_, rfl⟩
    rfl
  | unset key =>
    refine ⟨_, _, rfl, trivial, ?_, ?_⟩
    · simp only [Env.unset, after]
      split
      next => exact valueAt_without s.map key
      next absent =>
        have missing : valueAt s.map key = none := by
          rw [valueAt, Option.not_isSome_iff_eq_none.mp absent]
          rfl
        rw [← missing, Function.update_eq_self]
    · unfold Env.unset
      split <;> exact fresh
  | set key value overwrite =>
    refine ⟨(s.set key value overwrite btime).1, .result (s.set key value overwrite btime).2,
      rfl, ?_⟩
    cases key with
    | none =>
      refine ⟨⟨?_, fun _ => rfl⟩, rfl, fresh⟩
      rintro ⟨k, ⟨⟩, -⟩
    | some key =>
      by_cases named : key.length ≠ 0 ∧ equals ∉ key
      · obtain ⟨map, result⟩ := valueAt_set s key value overwrite btime named
        refine ⟨⟨fun _ => result, fun unnamed => ?_⟩, map, ?_⟩
        · exact absurd ⟨key, rfl, named⟩ unnamed
        · simp only [Env.set, named.1, named.2, if_false]
          split
          · cases overwrite <;> exact fresh
          · exact fresh
      · have rejected : s.set (some key) value overwrite btime = (s, -1) := by
          simp only [Env.set]
          grind
        rw [rejected]
        refine ⟨⟨?_, fun _ => rfl⟩, ?_, fresh⟩
        · rintro ⟨k, ⟨⟩, taken⟩
          exact absurd taken named
        · simp only [after]
          rw [if_pos]
          tauto

/-- The store answers a sequence of calls, at whatever times, exactly when none of them is
    `environ`: the array that it allocates has a byte for each pointer. -/
theorem environment_store {start : Int} {calls : List (Int × Call)} :
    Right (fun _ => none) (Env.create start) calls ↔ ∀ c ∈ calls, c.2 ≠ .environ := by
  suffices run : ∀ s : Env, s.environ = none →
      (Right (valueAt s.map) s calls ↔ ∀ c ∈ calls, c.2 ≠ .environ) from
    run (Env.create start) rfl
  induction calls with
  | nil => simp [Right]
  | cons c rest ih =>
    intro s fresh
    obtain ⟨btime, call⟩ := c
    by_cases other : call = .environ
    · subst other
      have stuck : step s btime .environ = none := by
        simp [step, Env.getEnviron, fresh, rebuild_none]
      simp [Right, stuck]
    · obtain ⟨s', reply, stepped, answered, map, fresh'⟩ := step_spec btime other fresh
      rw [List.forall_mem_cons, ← ih s' fresh', map]
      constructor
      · rintro ⟨s'', reply', stepped', -, right⟩
        rw [stepped] at stepped'
        obtain ⟨rfl, rfl⟩ := stepped'
        exact ⟨other, right⟩
      · rintro ⟨-, right⟩
        exact ⟨s', reply, stepped, answered, right⟩

/-- The first call of `environ` writes eight bytes into an array of one byte. -/
theorem environ_overruns : ¬ ∀ (start : Int) (calls : List (Int × Call)),
    (calls.map Prod.fst).IsChain (· ≤ ·) →
      Right (fun _ => none) (Env.create start) calls := by
  intro right
  obtain ⟨s', reply, stepped, -⟩ := right 0 [(0, .environ)] (by simp)
  have overrun : step (Env.create 0) 0 .environ = none := by decide
  rw [overrun] at stepped
  cases stepped

end EnvStore
