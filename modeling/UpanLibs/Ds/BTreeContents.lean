import UpanLibs.Ds.BTreeErase

/-!
What a tree contains: its entries in the order of their keys. `Find` and `InOrderTraverse` read
them, and each of `SetValue`, `Insert` and `Delete` changes one.
-/
namespace BTree
open Memory (Heap)
open LevelTree

variable {K V : Type}

section Entries

variable {o : KeyOrder K} {key k : K} {value : V} {es l l' : List (K × V)} {e : K × V}

/-- The value of the entry with an equal key. -/
def lookup (o : KeyOrder K) (es : List (K × V)) (key : K) : Option V :=
  (es.find? fun e => o.equal key e.1).map Prod.snd

def Sorted (o : KeyOrder K) (es : List (K × V)) : Prop := es.Pairwise fun a b => o.less a.1 b.1

theorem equal_comm (o : KeyOrder K) (a b : K) : o.equal a b = o.equal b a := by
  rw [KeyOrder.equal, Bool.or_comm, KeyOrder.equal]

theorem equal_congr {a b : K} (equal : o.equal a b = true) (k : K) :
    o.equal k a = o.equal k b := by
  have back := equal_comm o a b ▸ equal
  have below : o.less k a = o.less k b := Bool.eq_iff_iff.mpr
    ⟨fun less => less_of_equal less back, fun less => less_of_equal less equal⟩
  have above : o.less a k = o.less b k := Bool.eq_iff_iff.mpr
    ⟨fun less => more_of_equal less back, fun less => more_of_equal less equal⟩
  rw [KeyOrder.equal, KeyOrder.equal, below, above]

theorem lookup_none_iff :
    lookup o es key = none ↔ ∀ e ∈ es, o.equal key e.1 = false := by
  simp [lookup]

theorem lookup_congr {a b : K} (equal : o.equal a b = true) : lookup o es a = lookup o es b := by
  have same : (fun e : K × V => o.equal a e.1) = fun e => o.equal b e.1 := by
    funext e
    rw [equal_comm o a, equal_comm o b, equal_congr equal]
  rw [lookup, lookup, same]

theorem apart_middle (sorted : Sorted o (l ++ e :: l')) (equal : o.equal key e.1 = true) :
    ∀ a ∈ l ++ l', o.equal key a.1 = false := by
  obtain ⟨-, behind, ahead⟩ := List.pairwise_append.mp sorted
  intro a mem
  rcases List.mem_append.mp mem with mem | mem
  · exact equal_of_more (less_of_equal (ahead a mem e List.mem_cons_self) equal)
  · exact equal_of_less (more_of_equal ((List.pairwise_cons.mp behind).1 a mem) equal)

theorem lookup_middle (sorted : Sorted o (l ++ e :: l')) (k : K) :
    lookup o (l ++ e :: l') k = if o.equal k e.1 then some e.2 else lookup o (l ++ l') k := by
  cases equal : o.equal k e.1 with
  | true =>
    have before : l.find? (fun a => o.equal k a.1) = none := by
      rw [List.find?_eq_none]
      intro a mem
      simp [apart_middle sorted equal a (List.mem_append_left _ mem)]
    simp [lookup, List.find?_append, before, equal]
  | false => simp [lookup, List.find?_append, equal]

theorem lookup_some_iff (sorted : Sorted o es) :
    lookup o es key = some value ↔ ∃ e ∈ es, o.equal key e.1 = true ∧ e.2 = value := by
  constructor
  · intro found
    obtain ⟨e, here, rfl⟩ := Option.map_eq_some_iff.mp found
    exact ⟨e, List.mem_of_find?_eq_some here, by simpa using List.find?_some here, rfl⟩
  · rintro ⟨e, mem, equal, rfl⟩
    obtain ⟨l, l', rfl⟩ := List.append_of_mem mem
    rw [lookup_middle sorted, if_pos equal]

theorem lookup_removed (sorted : Sorted o (l ++ e :: l')) (equal : o.equal key e.1 = true) (k : K) :
    lookup o (l ++ l') k = if o.equal k key then none else lookup o (l ++ e :: l') k := by
  rw [equal_congr equal, lookup_middle sorted]
  by_cases same : o.equal k e.1 = true
  · rw [if_pos same, lookup_none_iff.mpr (apart_middle sorted same)]
  · rw [if_neg same, if_neg same]

theorem sorted_keys : Sorted o es ↔ (es.map Prod.fst).Pairwise fun a b => o.less a b := by
  rw [Sorted, List.pairwise_map]

theorem sorted_assigned (sorted : Sorted o (l ++ e :: l')) (value : V) :
    Sorted o (l ++ (e.1, value) :: l') := by
  rw [sorted_keys] at sorted ⊢
  simpa using sorted

theorem lookup_assigned (sorted : Sorted o (l ++ e :: l')) (equal : o.equal key e.1 = true)
    (value : V) (k : K) : lookup o (l ++ (e.1, value) :: l') k =
      if o.equal k key then some value else lookup o (l ++ e :: l') k := by
  rw [equal_congr equal, lookup_middle sorted, lookup_middle (sorted_assigned sorted value)]
  split
  · rfl
  · rfl

end Entries

section Reading

variable {D : Nat} {o : KeyOrder K} {t : Tree K V} {T : Branch K V D} {p : Option Nat} {key : K}

theorem shape_sorted (here : Shape o t.store T t.rootNode p) : Sorted o (entries T) :=
  separated_entries.mp here.separated

theorem shape_depth (here : Shape o t.store T t.rootNode p) : D ≤ t.store.nodes.next :=
  (depth_le T).trans (labels_le here.proper.linked here.proper.nodes)

theorem lookup_gap {r : Route Nat (Cell K V) D 0} (apart : Belongs o r key) :
    lookup o (entries (r.plug .nil)) key = none := by
  rw [lookup_none_iff]
  intro e there
  obtain ⟨c, mem, rfl⟩ := List.mem_map.mp there
  rw [Route.inorder_plug, LTree.inorder_nil, List.append_nil] at mem
  rcases List.mem_append.mp mem with mem | mem
  · exact equal_of_more (apart.left c mem)
  · exact equal_of_less (apart.right c mem)

theorem findElement_shape (here : Shape o t.store T t.rootNode p) (key : K) :
    (∃ d, ∃ r : Route Nat (Cell K V) D (d + 1), ∃ l before x c u after,
      T = r.plug (.node (close l before x ((c, u) :: after))) ∧ o.equal key c.key = true ∧
      findElement o key (t.store.nodes.next + 1) (some t.rootNode) t.store =
        some (some (l, c.address), t.store)) ∨
    (∃ r : Route Nat (Cell K V) D 0, T = r.plug .nil ∧ Belongs o r key ∧
      findElement o key (t.store.nodes.next + 1) (some t.rootNode) t.store =
        some (none, t.store)) := by
  rw [← here.top]
  exact findElement_linked here.proper.linked (separated_ordered.mp here.separated) here.sized
    (Nat.le_succ_of_le (shape_depth here))

theorem findElement_entries (here : Shape o t.store T t.rootNode p) (key : K) :
    (∃ n, ∃ c ∈ T.inorder, o.equal key c.key = true ∧
      findElement o key (t.store.nodes.next + 1) (some t.rootNode) t.store =
        some (some (n, c.address), t.store)) ∨
    (lookup o (entries T) key = none ∧
      findElement o key (t.store.nodes.next + 1) (some t.rootNode) t.store =
        some (none, t.store)) := by
  rcases findElement_shape here key with
    ⟨d, r, n, before, x, c, u, after, rfl, equal, run⟩ | ⟨r, rfl, apart, run⟩
  · refine .inl ⟨n, c, ?_, equal, run⟩
    rw [Route.inorder_plug, LTree.inorder_close]
    simp
  · exact .inr ⟨lookup_gap apart, run⟩

theorem find_entries (here : Shape o t.store T t.rootNode p) (key : K) :
    find o t key = some (lookup o (entries T) key) := by
  rcases findElement_entries here key with ⟨n, c, mem, equal, run⟩ | ⟨absent, run⟩
  · obtain ⟨l, r, live⟩ := linked_cells here.proper.linked c mem
    have value : lookup o (entries T) key = some c.value :=
      (lookup_some_iff (shape_sorted here)).mpr ⟨_, List.mem_map_of_mem mem, equal, rfl⟩
    rw [find, run_bind run_rounds, run]
    simp only [Option.bind_eq_bind, Option.bind_some, live, value]
  · rw [find, run_bind run_rounds, run]
    simp only [Option.bind_eq_bind, Option.bind_some, absent]

def assign (address : Nat) (value : V) (c : Cell K V) : Cell K V :=
  if c.address = address then { c with value := value } else c

theorem assign_address (a : Nat) (value : V) (c : Cell K V) :
    (assign a value c).address = c.address := by
  unfold assign
  split
  · rfl
  · rfl

theorem assign_other {a : Nat} (value : V) {l : List (Cell K V)}
    (others : ∀ e ∈ l, e.address ≠ a) : l.map (assign a value) = l :=
  (List.map_congr_left fun e mem => if_neg (others e mem)).trans (List.map_id l)

theorem setElement_linked {el : BTreeElement K V} {c : Cell K V} (here : Proper t.store T p)
    (mem : c ∈ T.inorder) (live : t.store.elements c.address = some el) (value : V) :
    ∃ s', setElement c.address { el with value := value } t.store = some ((), s') ∧
      Proper s' (T.map (assign c.address value)) p := by
  obtain ⟨l, r, live'⟩ := linked_cells here.linked c mem
  obtain rfl := Option.some.inj (live.symm.trans live')
  refine ⟨_, run_setElement (N := t.store.nodes) live _, proper_refilled here ?_⟩
  refine ⟨assign_address c.address value, rfl, fun e there a b this => ?_⟩
  by_cases same : e.address = c.address
  · rw [same, live, Option.some.injEq, BTreeElement.mk.injEq] at this
    obtain ⟨key, -, rfl, rfl⟩ := this
    simp only [same, Function.update_self, assign, if_true, key]
  · simp only [Function.update_of_ne same, assign, if_neg same, this]

theorem setValue_entries (here : Shape o t.store T t.rootNode p) (key : K) (value : V) :
    (lookup o (entries T) key = none ∧ setValue o t key value = some (t, false)) ∨
    ∃ s' l e l', ∃ T' : Branch K V D, setValue o t key value = some ({ t with store := s' }, true) ∧
      Shape o s' T' t.rootNode p ∧ addresses T'.inorder = addresses T.inorder ∧
      entries T = l ++ e :: l' ∧ o.equal key e.1 = true ∧
      entries T' = l ++ (e.1, value) :: l' := by
  rcases findElement_entries here key with ⟨n, c, mem, equal, run⟩ | ⟨absent, run⟩
  · obtain ⟨l, r, live⟩ := linked_cells here.proper.linked c mem
    obtain ⟨s', set, proper⟩ := setElement_linked here.proper mem live value
    obtain ⟨before, after, whole⟩ := List.append_of_mem mem
    have cells := here.proper.cells
    rw [whole, addresses_append] at cells
    obtain ⟨-, behind, ahead⟩ := List.nodup_append.mp cells
    have changed : (T.map (assign c.address value)).inorder =
        before ++ ⟨c.address, c.key, value⟩ :: after := by
      have other : ∀ e ∈ before, e.address ≠ c.address := fun e there =>
        ahead _ (List.mem_map_of_mem there) _ List.mem_cons_self
      have other' : ∀ e ∈ after, e.address ≠ c.address := fun e there same =>
        (List.nodup_cons.mp behind).1 (same ▸ List.mem_map_of_mem there)
      rw [LTree.inorder_map, whole, List.map_append, List.map_cons, assign_other value other,
        assign_other value other', assign, if_pos rfl]
    have new : entries (T.map (assign c.address value)) =
        before.map (fun c => (c.key, c.value)) ++ (c.key, value) ::
          after.map fun c => (c.key, c.value) := by
      rw [entries, changed, List.map_append, List.map_cons]
    have old : entries T = before.map (fun c => (c.key, c.value)) ++ (c.key, c.value) ::
        after.map fun c => (c.key, c.value) := by
      rw [entries, whole, List.map_append, List.map_cons]
    refine .inr ⟨s', _, _, _, _, ?_, ⟨proper, ?_, ?_, ?_⟩, ?_, old, equal, new⟩
    · rw [setValue, run_bind run_rounds, run]
      simp only [Option.bind_eq_bind, Option.bind_some, live, set]
    · rw [root_map, here.top]
    · exact (LTree.rootSized_map _ T).mpr here.sized
    · rw [separated_entries, new]
      exact sorted_assigned (old ▸ shape_sorted here) value
    · rw [LTree.inorder_map, addresses_map (assign_address _ value)]
  · refine .inl ⟨absent, ?_⟩
    rw [setValue, run_bind run_rounds, run]
    simp only [Option.bind_eq_bind, Option.bind_some]

end Reading

section Traversing

variable {D d k : Nat} {s : Store K V} {o : KeyOrder K} {σ : Type} {v : Visitor K V σ}

def Visitor.visitAll (v : Visitor K V σ) (st : σ) (es : List (K × V)) : σ :=
  es.foldl (fun st e => v.visit st e.1 e.2) st

def entriesAfter (rest : Children K V d) : List (K × V) :=
  (LTree.inorderAfter rest).map fun c => (c.key, c.value)

theorem traverseElements_linked (never : ∀ st, v.abort st = false)
    {child : Option Nat → σ → Program K V σ} {rest : Children K V d} {t : Branch K V d}
    (children : ∀ u : Branch K V d, u = t ∨ u ∈ rest.map Prod.snd → ∀ st,
      child (root u) st s = some (v.visitAll st (entries u), s))
    (here : After s (root t) rest) (any : rest ≠ []) (st : σ) :
    traverseElements v child (rest.map fun e => e.1.address) st s =
      some (v.visitAll st (entries t ++ entriesAfter rest), s) := by
  induction rest generalizing t st with
  | nil => exact absurd rfl any
  | cons e rest ih =>
    obtain ⟨c, u⟩ := e
    obtain ⟨between, here⟩ := here
    have first := children t (.inl rfl) st
    have next := fun st => children u (.inr (by simp)) st
    have goOn : ¬ v.abort (v.visitAll st (entries t)) = true := by simp [never]
    rw [List.map_cons, traverseElements, run_bind (run_element between), run_bind first,
      if_neg goOn]
    cases rest with
    | nil =>
      rw [if_pos List.map_nil, next]
      simp [Visitor.visitAll, entriesAfter, entries]
    | cons e rest =>
      rw [if_neg (by simp), ih ?_ here (by simp)]
      · simp [Visitor.visitAll, entriesAfter, entries]
      · intro w mem
        refine children w (.inr ?_)
        rcases mem with rfl | mem
        · exact List.mem_cons_self
        · exact List.mem_cons_of_mem _ mem

theorem traverse_none (never : ∀ st, v.abort st = false) (k : Nat) (st : σ) :
    traverse v k none st s = some (st, s) := by
  rw [traverse.eq_def]
  simp only [never, Bool.false_eq_true, if_false]
  rfl

theorem traverse_node (never : ∀ st, v.abort st = false) (k n : Nat) (st : σ) :
    traverse v (k + 1) (some n) st = (do
      let nd ← node n
      traverseElements v (traverse v k) nd.elements st : Program K V σ) := by
  rw [traverse.eq_def]
  simp only [never, Bool.false_eq_true, if_false]

theorem traverse_linked (never : ∀ st, v.abort st = false) {p : Option Nat} {t : Branch K V D}
    (here : Linked s t p) (sized : t.RootSized minElementsPerNode maxElementsPerNode)
    (fuel : D ≤ k) (st : σ) :
    traverse v k (root t) st s = some (v.visitAll st (entries t), s) := by
  induction D generalizing k p st with
  | zero => exact traverse_none never k st
  | succ D ih =>
    obtain ⟨⟨l, first, rest⟩, rfl⟩ := t.exists_node
    obtain ⟨k, rfl⟩ := Nat.exists_eq_succ_of_ne_zero (show k ≠ 0 by omega)
    obtain ⟨block, child, follows⟩ := linked_node.mp here
    obtain ⟨⟨least, -⟩, firstSized, restSized⟩ := LTree.rootSized_node.mp sized
    rw [root_node, traverse_node never, run_bind (run_node block)]
    have children : ∀ u : Branch K V D, u = first ∨ u ∈ rest.map Prod.snd → ∀ st,
        traverse v k (root u) st s = some (v.visitAll st (entries u), s) := by
      intro u mem st
      rcases mem with rfl | mem
      · exact ih child (rootSized_of_sized firstSized (by decide)) (by omega) st
      · obtain ⟨e, inside, rfl⟩ := List.mem_map.mp mem
        exact ih (follows.2 e inside) (rootSized_of_sized (restSized e inside) (by decide))
          (by omega) st
    cases rest with
    | nil =>
      -- only a root that is a leaf has no elements
      obtain rfl : D = 0 := by
        by_contra inner
        exact absurd (least inner) (by simp)
      rfl
    | cons e rest =>
      rw [traverseElements_linked never children follows.1 (by simp)]
      simp [entries, entriesAfter]

theorem inOrderTraverse_entries {t : Tree K V} {T : Branch K V D} {p : Option Nat}
    (never : ∀ st, v.abort st = false) (here : Shape o t.store T t.rootNode p) (st : σ) :
    inOrderTraverse v t st = some (v.visitAll st (entries T)) := by
  have run := traverse_linked never here.proper.linked here.sized
    (Nat.le_succ_of_le (shape_depth here)) st
  rw [here.top] at run
  rw [inOrderTraverse, run_bind run_rounds, run]
  rfl

end Traversing

section Changes

variable {D : Nat} {o : KeyOrder K} {c : MemPool.Setup} {t : Tree K V} {T : Branch K V D}
  {p : Option Nat}

/-- A tree whose elements are those that its pool has given out. -/
structure Holds {D : Nat} (o : KeyOrder K) (c : MemPool.Setup) (t : Tree K V) (T : Branch K V D)
    (p : Option Nat) : Prop where
  shape : Shape o t.store T t.rootNode p
  pool : MemPool.Invariant c t.pool
  owned : (addresses T.inorder).Perm t.pool.allocatedPool
  total : t.totalElements = (entries T).length

def HasRoom (c : MemPool.Setup) (t : Tree K V) : Prop := t.totalElements < c.maxElements

/-- The place of a new key: a gap whose leaf is not full, with the nodes above it up to a root
    that has no parent. -/
def InsertFits (o : KeyOrder K) (t : Tree K V) (key : K) : Prop :=
  ∀ D p, ∀ r : Route Nat (Cell K V) D 0, Shape o t.store (r.plug .nil) t.rootNode p →
    Belongs o r key → p = none ∨ ¬ Full r

theorem allocated_length (here : Holds o c t T p) :
    t.pool.allocatedPool.length = t.totalElements := by
  rw [here.total, entries, List.length_map, ← here.owned.length_eq, addresses, List.length_map]

theorem sound_poolSetup (iMaxElements : Int) {sizeofT : Nat} (malloc : Nat → Nat)
    (size : 0 < sizeofT) : (poolSetup iMaxElements sizeofT malloc).Sound := by
  have positive : 0 < (poolSetup iMaxElements sizeofT malloc).maxElements := by
    unfold poolSetup
    split
    · exact Nat.succ_pos 1023
    · simp only
      omega
  refine ⟨positive, positive, Nat.mod_self _, size, fun i j first second apart => ?_⟩
  have chunks : (poolSetup iMaxElements sizeofT malloc).maxChunks = 1 := Nat.div_self positive
  omega

theorem holds_create (o : KeyOrder K) (c : MemPool.Setup) (iMaxElements : Int) :
    Holds o c (create iMaxElements : Tree K V) (LTree.node ⟨0, .nil, []⟩) none where
  shape := by
    refine ⟨⟨linked_node.mpr ⟨rfl, trivial, follows_nil⟩, ?_, List.nodup_nil⟩, rfl, ?_, ?_⟩
    · exact List.nodup_singleton 0
    · exact LTree.rootSized_node.mpr ⟨⟨fun inner => absurd rfl inner, Nat.zero_le _⟩, trivial,
        fun _ mem => by cases mem⟩
    · rw [separated_entries]
      exact .nil
  pool := MemPool.invariant_create
  owned := .nil
  total := rfl

theorem createElement_cases (sound : c.Sound) (here : Holds o c t T p) (key : K) (value : V) :
    (¬ HasRoom c t ∧ ∃ pool, createElement c t key value = ({ t with pool := pool }, none) ∧
      MemPool.Invariant c pool ∧ pool.allocatedPool = t.pool.allocatedPool) ∨
    (HasRoom c t ∧ ∃ pool e, createElement c t key value = ({ t with
        pool := pool
        store := { t.store with
          elements := Function.update t.store.elements e (some ⟨key, value, none, none⟩) } },
        some e) ∧ e ∉ t.pool.allocatedPool ∧ MemPool.Invariant c pool ∧
      pool.allocatedPool.Perm (e :: t.pool.allocatedPool)) := by
  have kept := MemPool.invariant_allocate sound here.pool false
  have count := allocated_length here
  have room : t.pool.allocatedPool.length ≤ c.maxElements := by
    have whole := MemPool.slots_length here.pool
    have bounded := Nat.mul_le_mul_right c.chunkSize here.pool.bounded
    rw [MemPool.Setup.maxChunks, Nat.div_mul_cancel (Nat.dvd_of_mod_eq_zero sound.multiple)]
      at bounded
    omega
  rcases MemPool.allocate_cases sound here.pool false with
    ⟨none', out⟩ | ⟨any, out⟩ | ⟨front, e, last, fresh, out⟩
  · have full := (MemPool.refill_empty_iff sound here.pool).mp none'
    rw [out] at kept
    refine .inl ⟨by rw [HasRoom, ← count]; omega, _, ?_, kept, MemPool.refill_allocated _⟩
    simp only [createElement, out]
  · have threw := congrArg Prod.snd out
    rw [MemPool.allocate_eq] at threw
    split at threw
    · cases threw
    · cases threw
  · have some' : t.pool.allocatedPool.length ≠ c.maxElements := by
      rw [Ne, ← MemPool.refill_empty_iff sound here.pool, last]
      simp
    have room : HasRoom c t := by
      rw [HasRoom, ← count]
      omega
    rw [out] at kept
    refine .inr ⟨room, _, e, ?_, fresh, kept, List.perm_orderedInsert _ _ _⟩
    simp only [createElement, out]

theorem proper_update {s : Store K V} {e : Nat} (here : Proper s T p)
    (fresh : e ∉ addresses T.inorder) (el : BTreeElement K V) :
    Proper ⟨s.nodes, Function.update s.elements e (some el)⟩ T p := by
  have changed : Within s ⟨s.nodes, Function.update s.elements e (some el)⟩ [] [e] :=
    ⟨fun n _ => rfl, fun a out => Function.update_of_ne (by simpa using out) ..⟩
  refine ⟨here.linked.within changed (fun n _ => List.not_mem_nil) ?_, here.nodes, here.cells⟩
  intro c mem
  rw [List.mem_singleton]
  rintro rfl
  exact fresh (List.mem_map_of_mem mem)

theorem ready_gap {s : Store K V} {r : Route Nat (Cell K V) D 0} {e : Cell K V}
    (here : Proper s (r.plug .nil) p) (fresh : e.address ∉ addresses (r.plug .nil).inorder)
    (live : Between s e none none) : Ready s r (.nil : Branch K V 0) e .nil p := by
  refine ⟨trivial, live, trivial, (linked_plug.mp here.linked).2, ?_, ?_⟩
  · exact (Route.labels_plug r _).nodup_iff.mp here.nodes
  · have parts : (addresses (r.left ++ [e] ++ r.right)).Perm
        (e.address :: addresses (r.plug .nil).inorder) := by
      rw [Route.inorder_plug]
      simp [addresses]
    exact parts.nodup_iff.mpr (List.nodup_cons.mpr ⟨fresh, here.cells⟩)

theorem ordered_gap {r : Route Nat (Cell K V) D 0} {e : Cell K V}
    (ordered : Ordered o (r.left ++ r.right)) (belongs : Belongs o r e.key) :
    Ordered o (r.left ++ [e] ++ r.right) := by
  obtain ⟨front, back, apart⟩ := List.pairwise_append.mp ordered
  rw [List.append_assoc]
  refine List.pairwise_append.mpr ⟨front, List.pairwise_cons.mpr ⟨belongs.right, back⟩, ?_⟩
  intro a mem
  exact List.forall_mem_cons.mpr ⟨belongs.left a mem, apart a mem⟩

theorem insertElement_gap {k n top : Nat} {s : Store K V} {r : Route Nat (Cell K V) (D + 1) 0}
    {e : Cell K V} (ready : Ready s r (.nil : Branch K V 0) e .nil p)
    (below : r.above none = some n) (ordered : Ordered o (r.left ++ [e] ++ r.right))
    (topNode : root (r.plug .nil) = some top)
    (whole : (r.plug .nil).RootSized minElementsPerNode maxElementsPerNode)
    (free : p = none ∨ ¬ Full r) (fuel : r.length < k) :
    ∃ s' E top', ∃ T : Branch K V E,
      insertElement o k top (some n) e.address s = some ((top', true), s') ∧
      Grown s' T top' p (r.left ++ [e] ++ r.right) := by
  by_cases any : 1 ≤ (r.plug .nil).size
  · obtain ⟨sized, -⟩ := Route.sized_of_plug whole (.inr any)
    exact insertElement_linked r ready below ordered topNode sized trivial trivial free fuel
  · have least := (LTree.rootSized_node.mp whole).1.1
    obtain rfl : D = 0 := by
      by_contra inner
      exact any (least inner)
    cases r with
    | under g r =>
    cases r with
    | under g' r => exact absurd (route_depth r) (by omega)
    | top =>
    obtain ⟨l, before, after⟩ := g
    have size : before.length + after.length = 0 := by
      rw [Route.plug, Route.plug, LTree.size_node, Gap.fill, close_length] at any
      exact Nat.lt_one_iff.mp (Nat.not_le.mp any)
    obtain rfl : before = [] := List.length_eq_zero_iff.mp (by omega)
    obtain rfl : after = [] := List.length_eq_zero_iff.mp (by omega)
    obtain ⟨k, rfl⟩ := Nat.exists_eq_succ_of_ne_zero (show k ≠ 0 by omega)
    cases below
    cases topNode
    obtain ⟨s', T, run, grown⟩ := insertElement_first k l ready ordered trivial trivial
    exact ⟨s', _, l, T, run, grown⟩

theorem insert_entries {key : K} (sound : c.Sound) (here : Holds o c t T p) (value : V)
    (new : lookup o (entries T) key = none) (fits : InsertFits o t key) :
    (validateTreeSize t = false ∧ insert o c t key value = some (t, .returned false)) ∨
    (validateTreeSize t = true ∧ ¬ HasRoom c t ∧ ∃ pool,
      insert o c t key value = some ({ t with pool := pool },
        .threw "BTree::CreateElement: Failed to allocate memory for BTreeElement") ∧
      Holds o c { t with pool := pool } T p) ∨
    (validateTreeSize t = true ∧ HasRoom c t ∧ ∃ t' E l l', ∃ T' : Branch K V E,
      insert o c t key value = some (t', .returned true) ∧ Holds o c t' T' p ∧
      entries T = l ++ l' ∧ entries T' = l ++ (key, value) :: l') := by
  cases below : validateTreeSize t with
  | false => exact .inl ⟨rfl, by rw [insert, below]; rfl⟩
  | true =>
  refine .inr ?_
  rcases createElement_cases sound here key value with
    ⟨full, pool, made, kept, same⟩ | ⟨room, pool, e, made, fresh, kept, more⟩
  · refine .inl ⟨rfl, full, pool, ?_, here.shape, kept, ?_, here.total⟩
    · rw [insert, below, made]
      rfl
    · exact here.owned.trans (.of_eq same.symm)
  · refine .inr ⟨rfl, room, ?_⟩
    cases D with
    | zero => exact absurd here.shape.top (by simp [root])
    | succ D =>
    have absent : ∀ c ∈ T.inorder, o.equal key c.key = false := fun c mem =>
      lookup_none_iff.mp new _ (List.mem_map_of_mem mem)
    have ordered := separated_ordered.mp here.shape.separated
    have fresh : e ∉ addresses T.inorder := fun mem => fresh (here.owned.mem_iff.mp mem)
    have proper := proper_update here.shape.proper fresh ⟨key, value, none, none⟩
    obtain ⟨r, n, rfl, above, belongs, leaf⟩ := insertionLeaf_linked proper.linked ordered
      here.shape.sized (Nat.le_succ_of_le (shape_depth here.shape)) absent
    have parts : (r.plug .nil).inorder = r.left ++ r.right := by
      rw [Route.inorder_plug, LTree.inorder_nil, List.append_nil]
    have placed := ordered_gap (e := ⟨e, key, value⟩) (parts ▸ ordered) belongs
    obtain ⟨s', E, top', T', run, grown⟩ := insertElement_gap
      (ready_gap (e := ⟨e, key, value⟩) proper fresh (Function.update_self ..)) above placed
      here.shape.top here.shape.sized (fits _ p r here.shape belongs) (route_fuel proper)
    have old : entries (r.plug .nil) = r.left.map (fun c => (c.key, c.value)) ++
        r.right.map fun c => (c.key, c.value) := by
      rw [entries, parts, List.map_append]
    have new : entries T' = r.left.map (fun c => (c.key, c.value)) ++ (key, value) ::
        r.right.map fun c => (c.key, c.value) := by
      rw [entries, grown.inorder]
      simp
    refine ⟨{ t with
      store := s'
      pool := pool
      rootNode := top'
      totalElements := t.totalElements + 1 }, E, _, _, T', ?_,
      ⟨⟨grown.proper, grown.top, grown.sized, ?_⟩, kept, ?_, ?_⟩, old, new⟩
    · rw [insert, below, made]
      rw [here.shape.top] at leaf
      simp only [Bool.not_true, Bool.false_eq_true, if_false]
      rw [run_bind run_rounds, run_bind leaf, run]
      rfl
    · rw [separated_ordered, grown.inorder]
      exact placed
    · have owned := parts ▸ here.owned
      rw [grown.inorder]
      have moved : (addresses (r.left ++ [⟨e, key, value⟩] ++ r.right)).Perm
          (e :: addresses (r.left ++ r.right)) := by
        simp [addresses]
      exact moved.trans ((owned.cons e).trans more.symm)
    · simp only [here.total, old, new, List.length_append, List.length_cons]
      omega

theorem setValue_holds (here : Holds o c t T p) (key : K) (value : V) :
    (lookup o (entries T) key = none ∧ setValue o t key value = some (t, false)) ∨
    ∃ t' l e l', ∃ T' : Branch K V D, setValue o t key value = some (t', true) ∧
      Holds o c t' T' p ∧ entries T = l ++ e :: l' ∧ o.equal key e.1 = true ∧
      entries T' = l ++ (e.1, value) :: l' := by
  rcases setValue_entries here.shape key value with
    absent | ⟨s', l, e, l', T', run, shape, cells, old, equal, new⟩
  · exact .inl absent
  · refine .inr ⟨_, l, e, l', T', run, ⟨shape, here.pool, cells ▸ here.owned, ?_⟩, old, equal, new⟩
    rw [new]
    simpa [old] using here.total

theorem delete_entries {key : K} (here : Holds o c t T p) (safe : SafeDelete o t key) :
    (lookup o (entries T) key = none ∧ delete o t key = some (t, .returned false)) ∨
    ∃ t' p' E l e l', ∃ T' : Branch K V E, delete o t key = some (t', .returned true) ∧
      Holds o c t' T' p' ∧ entries T = l ++ e :: l' ∧ o.equal key e.1 = true ∧
      entries T' = l ++ l' := by
  rcases findElement_shape here.shape key with
    ⟨d, r, n, before, x, e, u, after, rfl, equal, run⟩ | ⟨r, rfl, apart, run⟩
  · have owned : ∀ a ∈ (r.plug (.node (close n before x ((e, u) :: after)))).inorder,
        a.address ∈ t.pool.allocatedPool := fun a mem =>
      here.owned.mem_iff.mp (List.mem_map_of_mem mem)
    obtain ⟨s', top', p', E, a, left, T', out, deleted⟩ :=
      delete_present here.shape owned safe equal run
    obtain ⟨l, f, l', old, same, new⟩ := deleted.entries
    have cells := here.owned.symm.trans deleted.cells
    have lent : a ∈ t.pool.allocatedPool := cells.mem_iff.mpr List.mem_cons_self
    refine .inr ⟨_, p', E, l, f, l', T', out, ⟨⟨deleted.proper, deleted.top, deleted.sized, ?_⟩,
      MemPool.invariant_release here.pool a, ?_, ?_⟩, old, same, new⟩
    · rw [separated_entries, new]
      have sorted := shape_sorted here.shape
      rw [old] at sorted
      exact sorted.sublist ((List.sublist_cons_self f l').append_left l)
    · rw [MemPool.release_present lent]
      exact ((List.perm_cons_erase lent).symm.trans cells).cons_inv.symm
    · simp only [here.total, old, new, List.length_append, List.length_cons]
      omega
  · refine .inl ⟨lookup_gap apart, ?_⟩
    rw [delete, run_bind run_rounds, run]
    rfl

end Changes
end BTree
