import UpanLibs.Transition
import UpanLibs.Ds.BTreeContents

/-!
Runs of a tree. While no insertion splits a root that has a parent, no deletion merges the root's
only element into its right child, and the limit is not above what the pool has, a tree is a
finite map that takes new keys up to its limit.
-/
namespace BTree
open LevelTree
open Transition (Run Guarded Steps)

variable {K V : Type}

section Operations

variable (o : KeyOrder K) (c : MemPool.Setup)

inductive Op (K V : Type) where
  | insert (key : K) (value : V)
  | setValue (key : K) (value : V)
  | delete (key : K)
  | setMaxElements (iSize : Int)

def step (t : Tree K V) : Op K V → Option (Tree K V)
  | .insert key value => (insert o c t key value).map Prod.fst
  | .setValue key value => (setValue o t key value).map Prod.fst
  | .delete key => (delete o t key).map Prod.fst
  | .setMaxElements iSize => some (setMaxElements t iSize)

/-- The values of the keys of a map after an operation. -/
def Op.apply (m : K → Option V) : Op K V → K → Option V
  | .insert key value, k => if o.equal k key then some value else m k
  | .setValue key value, k => if o.equal k key ∧ (m key).isSome then some value else m k
  | .delete key, k => if o.equal k key then none else m k
  | .setMaxElements _, k => m k

def NewKey (t : Tree K V) : Op K V → Prop
  | .insert key _ => find o t key = some none
  | _ => True

def BelowLimit (t : Tree K V) : Prop :=
  t.maxElements < 0 ∨ (t.totalElements : Int) < t.maxElements

def WithinLimit (t : Tree K V) : Op K V → Prop
  | .insert .. => BelowLimit t
  | _ => True

/-- The step needs no element that the pool lacks, and goes neither through the parent of the
    root nor through the merge that deletes it. -/
def Safely (t : Tree K V) : Op K V → Prop
  | .insert key _ => (BelowLimit t → HasRoom c t) ∧ InsertFits o t key
  | .delete key => SafeDelete o t key
  | _ => True

variable {o c}

instance newKeyDecidable [DecidableEq V] (t : Tree K V) : (op : Op K V) → Decidable (NewKey o t op)
  | .insert key _ => inferInstanceAs (Decidable (find o t key = some none))
  | .setValue .. | .delete _ | .setMaxElements _ => .isTrue trivial

instance belowLimitDecidable (t : Tree K V) : Decidable (BelowLimit t) :=
  inferInstanceAs (Decidable (_ ∨ _))

instance withinLimitDecidable (t : Tree K V) : (op : Op K V) → Decidable (WithinLimit t op)
  | .insert .. => belowLimitDecidable t
  | .setValue .. | .delete _ | .setMaxElements _ => .isTrue trivial

instance hasRoomDecidable (t : Tree K V) : Decidable (HasRoom c t) :=
  inferInstanceAs (Decidable (_ < _))

end Operations

section Steps

variable {D : Nat} {o : KeyOrder K} {c : MemPool.Setup} {t : Tree K V} {T : Branch K V D}
  {p : Option Nat} {key : K}

theorem validateTreeSize_iff : validateTreeSize t = true ↔ BelowLimit t := by
  unfold validateTreeSize BelowLimit
  split <;> simp [*]

theorem holds_setMaxElements (here : Holds o c t T p) (iSize : Int) :
    Holds o c (setMaxElements t iSize) T p := by
  unfold setMaxElements
  split
  · exact ⟨here.shape, here.pool, here.owned, here.total⟩
  · exact here

theorem insert_below (sound : c.Sound) (here : Holds o c t T p) (value : V)
    (new : lookup o (entries T) key = none) (fits : InsertFits o t key) (below : BelowLimit t)
    (room : HasRoom c t) : ∃ t' E, ∃ T' : Branch K V E,
      insert o c t key value = some (t', .returned true) ∧ Holds o c t' T' p ∧
      ∀ k, lookup o (entries T') k =
        if o.equal k key then some value else lookup o (entries T) k := by
  rcases insert_entries sound here value new fits with
    ⟨limit, -⟩ | ⟨-, full, -⟩ | ⟨-, -, t', E, l, l', T', run, holds, old, changed⟩
  · rw [validateTreeSize_iff.mpr below] at limit
    cases limit
  · exact absurd room full
  · refine ⟨t', E, T', run, holds, fun k => ?_⟩
    have sorted := shape_sorted holds.shape
    rw [changed] at sorted ⊢
    rw [lookup_middle sorted, old]

theorem not_below (limit : ¬ BelowLimit t) : validateTreeSize t = false := by
  rw [← Bool.not_eq_true, validateTreeSize_iff]
  exact limit

theorem insert_at_limit (limit : ¬ BelowLimit t) (key : K) (value : V) :
    insert o c t key value = some (t, .returned false) := by
  rw [insert, not_below limit]
  rfl

theorem setValue_step (here : Holds o c t T p) (key : K) (value : V) :
    ∃ t', ∃ T' : Branch K V D,
      setValue o t key value = some (t', (lookup o (entries T) key).isSome) ∧ Holds o c t' T' p ∧
      ∀ k, lookup o (entries T') k =
        if o.equal k key ∧ (lookup o (entries T) key).isSome then some value
        else lookup o (entries T) k := by
  have sorted := shape_sorted here.shape
  rcases setValue_holds here key value with
    ⟨absent, run⟩ | ⟨t', l, e, l', T', run, holds, old, equal, changed⟩
  · refine ⟨t, T, ?_, here, ?_⟩
    · rw [absent]
      exact run
    · simp [absent]
  · have present : lookup o (entries T) key = some e.2 :=
      (lookup_some_iff sorted).mpr ⟨e, by simp [old], equal, rfl⟩
    refine ⟨t', T', by rw [present]; exact run, holds, fun k => ?_⟩
    rw [old] at sorted
    rw [changed, lookup_assigned sorted equal, present, old]
    simp

theorem delete_step (here : Holds o c t T p) (safe : SafeDelete o t key) :
    ∃ t' E p', ∃ T' : Branch K V E,
      delete o t key = some (t', .returned (lookup o (entries T) key).isSome) ∧
      Holds o c t' T' p' ∧ ∀ k, lookup o (entries T') k =
        if o.equal k key then none else lookup o (entries T) k := by
  have sorted := shape_sorted here.shape
  rcases delete_entries here safe with
    ⟨absent, run⟩ | ⟨t', p', E, l, e, l', T', run, holds, old, equal, changed⟩
  · refine ⟨t, D, p, T, ?_, here, fun k => ?_⟩
    · rw [absent]
      exact run
    · split
      next same => rw [lookup_congr same, absent]
      next => rfl
  · have present : lookup o (entries T) key = some e.2 :=
      (lookup_some_iff sorted).mpr ⟨e, by simp [old], equal, rfl⟩
    refine ⟨t', E, p', T', by rw [present]; exact run, holds, fun k => ?_⟩
    rw [old] at sorted
    rw [changed, lookup_removed sorted equal, old]

theorem step_holds {op : Op K V} (sound : c.Sound) (here : Holds o c t T p) (new : NewKey o t op)
    (safe : Safely o c t op) : ∃ t' E p', ∃ T' : Branch K V E, step o c t op = some t' ∧
      Holds o c t' T' p' ∧ (WithinLimit t op →
        ∀ k, lookup o (entries T') k = op.apply o (lookup o (entries T)) k) := by
  cases op with
  | insert key value =>
    have absent : lookup o (entries T) key = none :=
      Option.some.inj ((find_entries here.shape key).symm.trans new)
    by_cases below : BelowLimit t
    · obtain ⟨t', E, T', run, holds, values⟩ :=
        insert_below sound here value absent safe.2 below (safe.1 below)
      exact ⟨t', E, p, T', by rw [step, run]; rfl, holds, fun _ => values⟩
    · have run := insert_at_limit (o := o) (c := c) below key value
      exact ⟨t, D, p, T, by rw [step, run]; rfl, here, fun within => absurd within below⟩
  | setValue key value =>
    obtain ⟨t', T', run, holds, values⟩ := setValue_step here key value
    exact ⟨t', D, p, T', by rw [step, run]; rfl, holds, fun _ => values⟩
  | delete key =>
    obtain ⟨t', E, p', T', run, holds, values⟩ := delete_step here safe
    exact ⟨t', E, p', T', by rw [step, run]; rfl, holds, fun _ => values⟩
  | setMaxElements iSize =>
    exact ⟨_, D, p, T, rfl, holds_setMaxElements here iSize, fun _ k => rfl⟩

end Steps

section Roots

variable {D : Nat} {o : KeyOrder K} {c : MemPool.Setup} {t : Tree K V} {T : Branch K V D}
  {s : Store K V} {top : Nat} {p : Option Nat}

theorem shape_block (here : Shape o s T top p) :
    ∃ es, s.nodes.block top = some ⟨p, es⟩ := by
  obtain ⟨proper, topNode, -, -⟩ := here
  cases D with
  | zero => cases topNode
  | succ D =>
    obtain ⟨row, rfl⟩ := T.exists_node
    cases topNode
    exact ⟨_, (linked_node.mp proper.linked).1⟩

theorem insertFits_of_root {es : List Nat}
    (block : t.store.nodes.block t.rootNode = some ⟨none, es⟩) (key : K) : InsertFits o t key := by
  intro D p r here _
  obtain ⟨es', block'⟩ := shape_block here
  rw [block, Option.some.injEq, BTreeNode.mk.injEq] at block'
  exact .inl block'.1.symm

def LeafRoot (t : Tree K V) : Prop :=
  ∃ nd ∈ t.store.nodes.block t.rootNode, nd.parentNode = none ∧
    (isLeaf nd.elements t.store).map Prod.fst = some true

instance leafRootDecidable (t : Tree K V) : Decidable (LeafRoot t) :=
  inferInstanceAs (Decidable (∃ nd ∈ t.store.nodes.block t.rootNode, _))

theorem leaf_depth (here : Shape o s T top p) {nd : BTreeNode}
    (block : s.nodes.block top = some nd)
    (leaf : (isLeaf nd.elements s).map Prod.fst = some true) : D = 1 := by
  obtain ⟨proper, topNode, sized, -⟩ := here
  cases D with
  | zero => cases topNode
  | succ D =>
  cases D with
  | zero => rfl
  | succ D =>
  obtain ⟨⟨l, first, rest⟩, rfl⟩ := T.exists_node
  cases topNode
  obtain ⟨block', -, follows⟩ := linked_node.mp proper.linked
  obtain rfl := Option.some.inj (block'.symm.trans block)
  have any : rest ≠ [] :=
    List.ne_nil_of_length_pos ((LTree.rootSized_node.mp sized).1.1 (Nat.succ_ne_zero D))
  rw [isLeaf_inner follows.1 any] at leaf
  cases leaf

theorem safely_of_leafRoot (here : LeafRoot t) (room : HasRoom c t) (op : Op K V) :
    Safely o c t op := by
  obtain ⟨⟨q, es⟩, block, parent, leaf⟩ := here
  cases op with
  | insert key value =>
    obtain rfl : q = none := parent
    exact ⟨fun _ => room, insertFits_of_root block key⟩
  | delete key =>
    intro D p n before c after r shape _
    obtain rfl := leaf_depth shape block leaf
    cases r with
    | top => trivial
    | under g r => exact absurd (route_depth r) (by omega)
  | setValue key value => trivial
  | setMaxElements iSize => trivial

end Roots

section Insertions

variable {D : Nat} {o : KeyOrder K} {c : MemPool.Setup} {t : Tree K V} {T : Branch K V D}

theorem insertions_hold (sound : c.Sound) (here : Holds o c t T none) (es : List (K × V))
    (new : ∀ e ∈ es, lookup o (entries T) e.1 = none)
    (distinct : es.Pairwise fun a b => o.equal a.1 b.1 = false) :
    ∃ t' E, ∃ T' : Branch K V E,
      Transition.runAll (step o c) t (es.map fun e => .insert e.1 e.2) = some t' ∧
      Holds o c t' T' none := by
  induction es generalizing t D with
  | nil => exact ⟨t, D, T, rfl, here⟩
  | cons e es ih =>
    obtain ⟨first, new⟩ := List.forall_mem_cons.mp new
    obtain ⟨apart, distinct⟩ := List.pairwise_cons.mp distinct
    obtain ⟨_, block⟩ := shape_block here.shape
    have fits : InsertFits o t e.1 := insertFits_of_root block e.1
    have next {t₁ : Tree K V} {out : Outcome} (run : insert o c t e.1 e.2 = some (t₁, out)) :
        Transition.runAll (step o c) t ((e :: es).map fun e => .insert e.1 e.2) =
          Transition.runAll (step o c) t₁ (es.map fun e => .insert e.1 e.2) := by
      rw [List.map_cons, Transition.runAll, step, run]
      rfl
    by_cases below : BelowLimit t
    · by_cases room : HasRoom c t
      · obtain ⟨t₁, E, T₁, run, holds, values⟩ :=
          insert_below sound here e.2 first fits below room
        rw [next run]
        refine ih holds (fun a mem => ?_) distinct
        rw [values, if_neg (by simp [equal_comm o a.1, apart a mem]), new a mem]
      · rcases insert_entries sound here e.2 first fits with
          ⟨limit, -⟩ | ⟨-, -, pool, run, holds⟩ | ⟨-, some', -⟩
        · rw [validateTreeSize_iff.mpr below] at limit
          cases limit
        · rw [next run]
          exact ih holds new distinct
        · exact absurd some' room
    · rw [next (insert_at_limit below e.1 e.2)]
      exact ih here new distinct

/-- The shape of a tree after any insertions of different keys. -/
theorem insertions_shape {iMaxElements : Int} {sizeofT : Nat} {malloc : Nat → Nat}
    (size : 0 < sizeofT) (es : List (K × V))
    (distinct : es.Pairwise fun a b => o.equal a.1 b.1 = false) :
    ∃ t, Transition.runAll (step o (poolSetup iMaxElements sizeofT malloc)) (create iMaxElements)
        (es.map fun e => .insert e.1 e.2) = some t ∧
      ∃ D, ∃ T : Branch K V D, Shape o t.store T t.rootNode none := by
  obtain ⟨t, E, T, run, holds⟩ := insertions_hold (sound_poolSetup iMaxElements malloc size)
    (holds_create o _ iMaxElements) es (fun _ _ => rfl) distinct
  exact ⟨t, run, E, T, holds.shape⟩

theorem insertions_shape_three : ∃ t, Transition.runAll (step natKeys (poolSetup 40 24 fun _ => 0))
      (create 40) ([(2, 1), (1, 5), (3, 0)].map fun e => .insert e.1 e.2) = some t ∧
    ∃ D, ∃ T : Branch Nat Nat D, Shape natKeys t.store T t.rootNode none :=
  insertions_shape (by decide) _ (by decide)

end Insertions

section Maps

variable {o : KeyOrder K} {c : MemPool.Setup} {t : Tree K V} {ops : List (Op K V)}

def Represents (o : KeyOrder K) (c : MemPool.Setup) (t : Tree K V) (m : K → Option V) : Prop :=
  ∃ D p, ∃ T : Branch K V D, Holds o c t T p ∧ ∀ k, lookup o (entries T) k = m k

/-- What every operation answers is what a finite map with these values answers. -/
structure IsMap (o : KeyOrder K) (c : MemPool.Setup) (t : Tree K V) (m : K → Option V) : Prop where
  find : ∀ key, find o t key = some (m key)
  setValue : ∀ key value, ∃ t', setValue o t key value = some (t', (m key).isSome)
  insert : ∀ key value, m key = none → WithinLimit t (.insert key value) →
    Safely o c t (.insert key value) → ∃ t', insert o c t key value = some (t', .returned true)
  delete : ∀ key, Safely o c t (.delete key) →
    ∃ t', delete o t key = some (t', .returned (m key).isSome)
  inOrder : ∃ es, Sorted o es ∧ (∀ key, lookup o es key = m key) ∧ t.totalElements = es.length ∧
    ∀ (σ : Type) (v : Visitor K V σ) st, (∀ st, v.abort st = false) →
      inOrderTraverse v t st = some (v.visitAll st es)

theorem isMap_of_represents {m : K → Option V} (sound : c.Sound) (here : Represents o c t m) :
    IsMap o c t m := by
  obtain ⟨D, p, T, holds, values⟩ := here
  constructor
  · intro key
    rw [find_entries holds.shape, values]
  · intro key value
    obtain ⟨t', -, run, -⟩ := setValue_step holds key value
    exact ⟨t', by rw [run, values]⟩
  · intro key value new below safe
    obtain ⟨t', -, -, run, -⟩ := insert_below sound holds value (by rw [values, new]) safe.2 below
      (safe.1 below)
    exact ⟨t', run⟩
  · intro key safe
    obtain ⟨t', -, -, -, run, -⟩ := delete_step holds safe
    exact ⟨t', by rw [run, values]⟩
  · exact ⟨entries T, shape_sorted holds.shape, values, holds.total,
      fun σ v st never => inOrderTraverse_entries never holds.shape st⟩

theorem represents_create (o : KeyOrder K) (c : MemPool.Setup) (iMaxElements : Int) :
    Represents o c (create iMaxElements : Tree K V) fun _ => none :=
  ⟨1, none, _, holds_create o c iMaxElements, fun _ => rfl⟩

/-- A run of safe operations with new keys for insertions, within the limit. -/
theorem run_isMap {iMaxElements : Int} {sizeofT : Nat} {malloc : Nat → Nat} (size : 0 < sizeofT)
    (run : Run (Guarded (fun t op => NewKey o t op ∧ WithinLimit t op ∧
        Safely o (poolSetup iMaxElements sizeofT malloc) t op)
      (Steps (step o (poolSetup iMaxElements sizeofT malloc)))) (create iMaxElements) ops t) :
    IsMap o (poolSetup iMaxElements sizeofT malloc) t (ops.foldl (Op.apply o) fun _ => none) := by
  have sound := sound_poolSetup iMaxElements malloc size
  refine isMap_of_represents sound (Transition.run_simulation (Represents o _) (Op.apply o) ?_ run _
    (represents_create o _ iMaxElements))
  rintro t op t' m ⟨D, p, T, holds, values⟩ ⟨⟨new, within, safe⟩, taken⟩
  obtain ⟨t'', E, p', T', run, holds', changed⟩ := step_holds sound holds new safe
  obtain rfl := Option.some.inj (run.symm.trans taken)
  refine ⟨E, p', T', holds', fun k => ?_⟩
  rw [changed within k]
  cases op <;> simp [Op.apply, values]

theorem run_of_leafRoot [DecidableEq V] (t₀ : Tree K V) (ops : List (Op K V)) (P : Tree K V → Prop)
    (reached : ∃ t ∈ Transition.runAll (Transition.guarded (fun t op => (NewKey o t op ∧
      WithinLimit t op) ∧ LeafRoot t ∧ HasRoom c t) (step o c)) t₀ ops, P t) :
    ∃ t, Run (Guarded (fun t op => NewKey o t op ∧ WithinLimit t op ∧ Safely o c t op)
      (Steps (step o c))) t₀ ops t ∧ P t := by
  obtain ⟨t, run, holds⟩ := reached
  refine ⟨t, Transition.run_guarded_mono ?_ (Transition.run_guarded_iff.mpr run), holds⟩
  rintro t op ⟨⟨new, within⟩, leaf, room⟩
  exact ⟨new, within, safely_of_leafRoot leaf room op⟩

def fewOps : List (Op Nat Nat) := [.insert 2 20, .insert 1 10, .setValue 2 21, .delete 1]

theorem run_isMap_few : ∃ t, Run (Guarded (fun t op => NewKey natKeys t op ∧ WithinLimit t op ∧
        Safely natKeys (poolSetup 40 24 fun _ => 0) t op)
      (Steps (step natKeys (poolSetup 40 24 fun _ => 0)))) (create 40) fewOps t ∧
    IsMap natKeys (poolSetup 40 24 fun _ => 0) t
      (fewOps.foldl (Op.apply natKeys) fun _ => none) := by
  obtain ⟨t, run, -⟩ := run_of_leafRoot (o := natKeys) (c := poolSetup 40 24 fun _ => 0)
    (create 40) fewOps (fun _ => True) (by decide +kernel)
  exact ⟨t, run, run_isMap (by decide) run⟩

/-- The keys from 0 to 32, and then the last one out of the right leaf, which is merged into the
    left one. -/
def mergedRoot : List (Op Nat Nat) := (List.range 33).map (fun i => .insert i i) ++ [.delete 32]

theorem merged_root_deleted : ∃ t, Run (Guarded (fun t op => NewKey natKeys t op ∧
        WithinLimit t op) (Steps (step natKeys (poolSetup 40 24 fun _ => 0)))) (create 40)
      mergedRoot t ∧
    ¬ IsMap natKeys (poolSetup 40 24 fun _ => 0) t
      (mergedRoot.foldl (Op.apply natKeys) fun _ => none) := by
  have reached : ∃ t ∈ Transition.runAll (Transition.guarded (fun t op => NewKey natKeys t op ∧
      WithinLimit t op) (step natKeys (poolSetup 40 24 fun _ => 0))) (create 40) mergedRoot,
      find natKeys t 0 = none := by decide +kernel
  obtain ⟨t, run, lost⟩ := reached
  refine ⟨t, Transition.run_guarded_iff.mpr run, fun map => ?_⟩
  have answer := map.find 0
  rw [lost] at answer
  cases answer

end Maps

section Capacity

variable {o : KeyOrder K} {c : MemPool.Setup} {t : Tree K V} {ops : List (Op K V)} {key : K}

/-- A tree takes a new key below its limit and refuses it at the limit. -/
structure Accepts (o : KeyOrder K) (c : MemPool.Setup) (t : Tree K V) (key : K) (value : V) :
    Prop where
  below : BelowLimit t → ∃ t', insert o c t key value = some (t', .returned true)
  atLimit : ¬ BelowLimit t → insert o c t key value = some (t, .returned false)
  never : ∀ t' text, insert o c t key value ≠ some (t', .threw text)

theorem accepts_iff {D : Nat} {T : Branch K V D} {p : Option Nat} (sound : c.Sound)
    (here : Holds o c t T p) (value : V) (new : lookup o (entries T) key = none)
    (fits : InsertFits o t key) : Accepts o c t key value ↔ (BelowLimit t → HasRoom c t) := by
  constructor
  · intro accepts below
    by_contra full
    rcases insert_entries sound here value new fits with
      ⟨limit, -⟩ | ⟨-, -, pool, run, -⟩ | ⟨-, room, -⟩
    · rw [validateTreeSize_iff.mpr below] at limit
      cases limit
    · exact accepts.never _ _ run
    · exact full room
  · intro room
    by_cases below : BelowLimit t
    · obtain ⟨t', -, -, run, -⟩ := insert_below sound here value new fits below (room below)
      refine ⟨fun _ => ⟨t', run⟩, fun limit => absurd below limit, fun t' text threw => ?_⟩
      rw [run] at threw
      cases threw
    · have run := insert_at_limit (o := o) (c := c) below key value
      refine ⟨fun small => absurd small below, fun _ => run, fun t' text threw => ?_⟩
      rw [run] at threw
      cases threw

/-- In a run of safe operations, a new key is taken exactly when the limit is not above what the
    pool has. -/
theorem run_accepts_iff {iMaxElements : Int} {sizeofT : Nat} {malloc : Nat → Nat}
    (size : 0 < sizeofT)
    (run : Run (Guarded (fun t op => NewKey o t op ∧
        Safely o (poolSetup iMaxElements sizeofT malloc) t op)
      (Steps (step o (poolSetup iMaxElements sizeofT malloc)))) (create iMaxElements) ops t) :
    (∃ es, Sorted o es ∧ (∀ key, find o t key = some (lookup o es key)) ∧
      t.totalElements = es.length) ∧
    ∀ key value, find o t key = some none → InsertFits o t key →
      (Accepts o (poolSetup iMaxElements sizeofT malloc) t key value ↔
        (BelowLimit t → HasRoom (poolSetup iMaxElements sizeofT malloc) t)) := by
  have sound := sound_poolSetup iMaxElements malloc size
  have reached : ∃ D p, ∃ T : Branch K V D,
      Holds o (poolSetup iMaxElements sizeofT malloc) t T p := by
    refine Transition.run_invariant (fun t => ∃ D p, ∃ T : Branch K V D, Holds o _ t T p) ?_ run
      ⟨1, none, _, holds_create o _ iMaxElements⟩
    rintro t op t' ⟨D, p, T, holds⟩ ⟨⟨new, safe⟩, taken⟩
    obtain ⟨t'', E, p', T', run, holds', -⟩ := step_holds sound holds new safe
    obtain rfl := Option.some.inj (run.symm.trans taken)
    exact ⟨E, p', T', holds'⟩
  obtain ⟨D, p, T, holds⟩ := reached
  refine ⟨⟨entries T, shape_sorted holds.shape, find_entries holds.shape, holds.total⟩, ?_⟩
  intro key value new fits
  rw [find_entries holds.shape, Option.some.injEq] at new
  exact accepts_iff sound holds value new fits

theorem run_capacity {t₀ : Tree K V}
    (run : Run (Guarded (fun t op => NewKey o t op ∧ WithinLimit t op ∧ Safely o c t op)
      (Steps (step o c))) t₀ ops t) :
    Run (Guarded (fun t op => NewKey o t op ∧ Safely o c t op) (Steps (step o c))) t₀ ops t := by
  refine Transition.run_guarded_mono ?_ run
  rintro t op ⟨new, -, safe⟩
  exact ⟨new, safe⟩

theorem run_accepts_iff_pair : ∃ t, Run (Guarded (fun t op => NewKey natKeys t op ∧
        Safely natKeys (poolSetup 2 24 fun _ => 0) t op)
      (Steps (step natKeys (poolSetup 2 24 fun _ => 0)))) (create 2)
      [.insert 1 10, .delete 1, .insert 5 50, .setMaxElements 3] t ∧
    ((∃ es, Sorted natKeys es ∧ (∀ key, find natKeys t key = some (lookup natKeys es key)) ∧
      t.totalElements = es.length) ∧
    ∀ key value, find natKeys t key = some none → InsertFits natKeys t key →
      (Accepts natKeys (poolSetup 2 24 fun _ => 0) t key value ↔
        (BelowLimit t → HasRoom (poolSetup 2 24 fun _ => 0) t))) := by
  obtain ⟨t, run, -⟩ := run_of_leafRoot (o := natKeys) (c := poolSetup 2 24 fun _ => 0)
    (create 2) [.insert 1 10, .delete 1, .insert 5 50, .setMaxElements 3] (fun _ => True)
    (by decide +kernel)
  exact ⟨t, run_capacity run, run_accepts_iff (by decide) (run_capacity run)⟩

/-- The limit is raised to two, and the pool has one element. -/
theorem raised_limit_throws : ∃ t, Run (Guarded (NewKey natKeys)
      (Steps (step natKeys (poolSetup 1 24 fun _ => 0)))) (create 1)
      [.setMaxElements 2, .insert 0 0] t ∧
    find natKeys t 1 = some none ∧ t.totalElements = 1 ∧ t.maxElements = 2 ∧
    ¬ Accepts natKeys (poolSetup 1 24 fun _ => 0) t 1 1 := by
  have reached : ∃ t ∈ Transition.runAll (Transition.guarded (NewKey natKeys)
      (step natKeys (poolSetup 1 24 fun _ => 0))) (create 1) [.setMaxElements 2, .insert 0 0],
      find natKeys t 1 = some none ∧ t.totalElements = 1 ∧ t.maxElements = 2 ∧
      (insert natKeys (poolSetup 1 24 fun _ => 0) t 1 1).map Prod.snd = some (.threw
        "BTree::CreateElement: Failed to allocate memory for BTreeElement") := by
    decide +kernel
  obtain ⟨t, run, new, one, two, threw⟩ := reached
  refine ⟨t, Transition.run_guarded_iff.mpr run, new, one, two, fun accepts => ?_⟩
  have small : BelowLimit t := .inr (by rw [one, two]; decide)
  obtain ⟨t', taken⟩ := accepts.below small
  rw [taken] at threw
  cases threw

end Capacity

end BTree
