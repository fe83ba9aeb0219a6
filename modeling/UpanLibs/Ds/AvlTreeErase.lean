import UpanLibs.Ds.AvlTreeWalk

/-!
The private `erase` of a linked tree does what `HTree.erase` does to the tree. A node with
two children is not moved: its successor is linked in its place, and the node itself waits at
the place of the successor until the recursion frees it there.
-/
namespace AvlTree
open Memory HeightTree HeightTree.HTree

variable {V K : Type}

section Spine

/-- A node on the way down a left side, with its height and its right subtree. -/
abbrev Frame (V : Type) := (Nat × V) × Nat × Cells V

def above (s : List (Frame V)) (q : Option Nat) : Option Nat :=
  match s with
  | [] => q
  | f :: _ => some f.1.1

/-- The nodes on the way down to `hole` are live and linked. -/
def Hung (h : Heap (Node V)) : List (Frame V) → Option Nat → Option Nat → Prop
  | [], _, _ => True
  | (x, k, r) :: s, hole, q => h.block x.1 = some ⟨x.2, k, above s q, hole, root r⟩ ∧
      Linked h r (some x.1) ∧ Hung h s (some x.1) q

def spineIds (s : List (Frame V)) : List Nat := (spineCells s).map Prod.fst

variable {h h' : Heap (Node V)} {s : List (Frame V)} {x : Nat × V} {k : Nat} {r t : Cells V}
  {hole q : Option Nat} {a : Nat}

@[simp]
theorem mem_spineIds : a ∈ spineIds ((x, k, r) :: s) ↔ a = x.1 ∨ a ∈ ids r ∨ a ∈ spineIds s := by
  simp only [spineIds, spineCells, List.map_append, List.map_cons, List.cons_append,
    List.mem_cons, List.mem_append]
  rfl

theorem nodup_spine : (spineIds ((x, k, r) :: s)).Nodup ↔ x.1 ∉ ids r ∧ x.1 ∉ spineIds s ∧
    (ids r).Nodup ∧ (spineIds s).Nodup ∧ ∀ a ∈ ids r, a ∉ spineIds s := by
  simp only [spineIds, spineCells, List.map_append, List.map_cons, List.cons_append,
    List.nodup_cons, List.nodup_append, List.mem_append, ids]
  grind

theorem mem_ids_plug : a ∈ ids (plug s t) ↔ a ∈ ids t ∨ a ∈ spineIds s := by
  rw [ids, cells_plug, List.map_append, List.mem_append]
  rfl

theorem root_plug (f : Frame V) (s : List (Frame V)) :
    ∃ y ∈ spineIds (f :: s), ∀ t, root (plug (f :: s) t) = some y := by
  induction s generalizing f with
  | nil => exact ⟨f.1.1, by simp [spineIds, spineCells], fun t => rfl⟩
  | cons e s ih =>
    obtain ⟨y, mem, top⟩ := ih e
    exact ⟨y, mem_spineIds.mpr (.inr (.inr mem)), fun t => top _⟩

theorem nodup_plug : (ids (plug s t)).Nodup ↔
    (ids t).Nodup ∧ (spineIds s).Nodup ∧ ∀ a ∈ ids t, a ∉ spineIds s := by
  rw [ids, cells_plug, List.map_append, List.nodup_append]
  simp only [ids, spineIds]
  grind

theorem linked_plug : Linked h (plug s t) q ↔
    Linked h t (above s q) ∧ Hung h s (root t) q := by
  induction s generalizing t with
  | nil => simp [plug, above, Hung]
  | cons f s ih =>
    obtain ⟨x, k, r⟩ := f
    rw [plug, ih]
    simp only [Linked, Hung, above, root, nodeOf]
    grind

theorem Hung.congr (hung : Hung h s hole q) (same : ∀ a ∈ spineIds s, h'.block a = h.block a) :
    Hung h' s hole q := by
  induction s generalizing hole with
  | nil => trivial
  | cons f s ih =>
    obtain ⟨x, k, r⟩ := f
    obtain ⟨here, right, up⟩ := hung
    refine ⟨?_, right.congr ?_, ih up ?_⟩
    · rw [same x.1 (by simp), here]
    · intro a mem
      exact same a (by simp [mem])
    · intro a mem
      exact same a (by simp [mem])

theorem Hung.rehang {hole' : Option Nat} (hung : Hung h ((x, k, r) :: s) hole q)
    (nodup : (spineIds ((x, k, r) :: s)).Nodup)
    (here : h'.block x.1 = some ⟨x.2, k, above s q, hole', root r⟩)
    (same : ∀ a ∈ spineIds ((x, k, r) :: s), a ≠ x.1 → h'.block a = h.block a) :
    Hung h' ((x, k, r) :: s) hole' q := by
  obtain ⟨-, right, up⟩ := hung
  obtain ⟨outR, outS, -⟩ := nodup_spine.mp nodup
  refine ⟨here, right.congr ?_, up.congr ?_⟩
  · intro a mem
    exact same a (by simp [mem]) fun here => outR (here ▸ mem)
  · intro a mem
    exact same a (by simp [mem]) fun here => outS (here ▸ mem)

theorem Hung.reparent (hung : Hung h ((x, k, r) :: s) hole q)
    (nodup : (spineIds ((x, k, r) :: s)).Nodup) :
    ∃ y n, (∀ t, root (plug ((x, k, r) :: s) t) = some y) ∧ y ∈ spineIds ((x, k, r) :: s) ∧
      h.block y = some n ∧ ∀ h' q', h'.block y = some { n with parent := q' } →
        (∀ a ∈ spineIds ((x, k, r) :: s), a ≠ y → h'.block a = h.block a) →
        Hung h' ((x, k, r) :: s) hole q' := by
  induction s generalizing x k r hole with
  | nil =>
    obtain ⟨here, right, -⟩ := hung
    obtain ⟨outR, -⟩ := nodup_spine.mp nodup
    refine ⟨x.1, _, fun t => rfl, by simp, here, ?_⟩
    intro h' q' here' same
    refine ⟨here', right.congr ?_, trivial⟩
    intro a mem
    exact same a (by simp [mem]) fun here => outR (here ▸ mem)
  | cons f s ih =>
    obtain ⟨z, i, u⟩ := f
    obtain ⟨here, right, up⟩ := hung
    obtain ⟨outR, outS, nodupR, nodupS, apart⟩ := nodup_spine.mp nodup
    obtain ⟨y, n, top, mem, there, change⟩ := ih up nodupS
    refine ⟨y, n, fun t => top _, by rw [mem_spineIds]; exact .inr (.inr mem), there, ?_⟩
    intro h' q' there' same
    refine ⟨?_, right.congr ?_, change h' q' there' ?_⟩
    · rw [same x.1 (by simp) fun here => outS (here ▸ mem), here]
      rfl
    · intro a inside
      exact same a (by simp [inside]) fun here => apart a inside (here ▸ mem)
    · intro a inside other
      exact same a (by rw [mem_spineIds]; exact .inr (.inr inside)) other

theorem setChild_run {d : Side} {b : Nat} {n m : Node V} (here : h.block a = some n)
    (there : h.block b = some m) (apart : b ≠ a) :
    ∃ h', setChild d a (some b) h = some ((), h') ∧
      h'.block a = some (n.withChild d (some b)) ∧
      h'.block b = some { m with parent := some a } ∧ Within h h' [a, b] := by
  have written := Heap.block_write_self here (n.withChild d (some b))
  have there' := (h.block_write_other (n.withChild d (some b)) apart).trans there
  refine ⟨_, ?_, ?_, Heap.block_write_self there' _, ?_⟩
  · rw [setChild, run_bind (run_load here), run_bind (run_store here _)]
    exact (run_bind (run_load there')).trans (run_store there' _)
  · rw [Heap.block_write_other _ _ apart.symm, written]
  · exact (within_write h a _).trans (within_write _ b _) (by simp) (by simp)

theorem setChild_null {d : Side} {n : Node V} (here : h.block a = some n) :
    ∃ h', setChild d a none h = some ((), h') ∧ h'.block a = some (n.withChild d none) ∧
      Within h h' [a] := by
  refine ⟨_, ?_, Heap.block_write_self here (n.withChild d none), within_write h a _⟩
  rw [setChild, run_bind (run_load here), run_bind (run_store here _)]
  rfl

end Spine

section Relink

variable {h : Heap (Node V)} {p : Option Nat} {l c g : Cells V} {n s m : Nat × V} {k j i : Nat}
  {u : List (Frame V)}

theorem relink_linked
    (linked : Linked h (node l n k (plug ((m, i, g) :: u) (node leaf s j c))) p)
    (nodup : (ids (node l n k (plug ((m, i, g) :: u) (node leaf s j c)))).Nodup) :
    ∃ h', relink n.1 s.1 (root l) (root (plug ((m, i, g) :: u) (node leaf s j c))) none (root c) h =
        some ((), h') ∧
      Linked h' (plug ((m, i, g) :: u) (node leaf n k c)) (some s.1) ∧ Linked h' l (some s.1) ∧
      h'.block s.1 = some (nodeOf .left l s j (plug ((m, i, g) :: u) (node leaf n k c)) (some m.1)) ∧
      Within h h' (ids (node l n k (plug ((m, i, g) :: u) (node leaf s j c)))) := by
  obtain ⟨hereN, linkedL, linkedR⟩ := linked
  obtain ⟨⟨hereS, -, linkedC⟩, hung⟩ := linked_plug.mp linkedR
  obtain ⟨nodupL, nodupR, outL, outR, apart⟩ := (nodup_make (d := .left)).mp nodup
  obtain ⟨nodupS, nodupU, apartU⟩ := nodup_plug.mp nodupR
  obtain ⟨-, nodupC, -, outC, -⟩ := (nodup_make (d := .left)).mp nodupS
  have idsS : ∀ a, a ∈ ids (node leaf s j c) ↔ a = s.1 ∨ a ∈ ids c := by
    intro a
    exact (mem_ids_make (d := .left)).trans (by simp)
  have idsR : ∀ a, a ∈ ids (plug ((m, i, g) :: u) (node leaf s j c)) ↔
      (a = s.1 ∨ a ∈ ids c) ∨ a ∈ spineIds ((m, i, g) :: u) := by
    intro a
    rw [mem_ids_plug, idsS]
  have onM : m.1 ∈ spineIds ((m, i, g) :: u) := by simp
  simp only [idsS] at apartU
  simp only [idsR] at outR apart
  obtain ⟨h₁, run₁, linked₁, within₁⟩ := setChild_linked (d := .left) hereS (nodeOf_withChild l)
    linkedL linkedC ((nodup_make (d := .left)).mpr (by grind))
  obtain ⟨hereS₁, linkedL₁, linkedC₁⟩ := linked_make.mp linked₁
  have hung₁ : Hung h₁ ((m, i, g) :: u) (some s.1) (some n.1) :=
    hung.congr fun a mem => within₁ a (by grind)
  obtain ⟨y, yn, top, onY, hereY, change⟩ := hung₁.reparent nodupU
  obtain ⟨h₂, run₂, hereS₂, hereY₂, within₂⟩ := setChild_run (d := .right) hereS₁ hereY (by grind)
  have hung₂ := change h₂ (some s.1) hereY₂ fun a mem other => within₂ a (by grind)
  have linkedL₂ := linkedL₁.frame within₂ (by grind)
  have linkedC₂ := linkedC₁.frame within₂ (by grind)
  have hereN₂ : h₂.block n.1 = some (nodeOf .left l n k (plug ((m, i, g) :: u) (node leaf s j c)) p) := by
    rw [within₂ n.1 (by grind), within₁ n.1 (by grind), hereN]
  obtain ⟨h₃, run₃, hereM₃, hereN₃, within₃⟩ := setChild_run (d := .left) hung₂.1 hereN₂ (by grind)
  have hung₃ : Hung h₃ ((m, i, g) :: u) (some n.1) (some s.1) :=
    hung₂.rehang nodupU hereM₃ fun a mem other => within₃ a (by grind)
  have hereS₃ : h₃.block s.1 = h₂.block s.1 := within₃ s.1 (by grind)
  have linkedL₃ := linkedL₂.frame within₃ (by grind)
  have linkedC₃ := linkedC₂.frame within₃ (by grind)
  obtain ⟨h₄, run₄, hereN₄, within₄⟩ := setChild_null (d := .left) hereN₃
  have linkedC₄ := linkedC₃.frame within₄ (by grind)
  obtain ⟨h₅, run₅, linked₅, within₅⟩ := setChild_linked (d := .right) (p := some m.1) (o := leaf)
    hereN₄ rfl linkedC₄ trivial ((nodup_make (d := .right)).mpr (by grind [ids_leaf]))
  have hung₄ : Hung h₄ ((m, i, g) :: u) (some n.1) (some s.1) :=
    hung₃.congr fun a mem => within₄ a (by grind)
  have hung₅ : Hung h₅ ((m, i, g) :: u) (some n.1) (some s.1) :=
    hung₄.congr fun a mem => within₅ a (by grind)
  refine ⟨h₅, ?_, linked_plug.mpr ⟨linked₅, hung₅⟩, ?_, ?_, ?_⟩
  · rw [relink, run_bind run₁, top, run_bind run₂, run_bind (run_parent hereS₂)]
    exact (run_bind (run_deref m.1)).trans
      ((run_bind run₃).trans ((run_bind run₄).trans run₅))
  · exact (linkedL₃.frame within₄ (by grind)).frame within₅ (by grind)
  · rw [within₅ s.1 (by grind), within₄ s.1 (by grind), hereS₃, hereS₂, ← top (node leaf n k c)]
    rfl
  · intro a out
    have outside := (not_congr (mem_ids_make (d := .left) (k := k))).mp out
    simp only [idsR] at outside
    rw [within₅ a (by grind), within₄ a (by grind), within₃ a (by grind), within₂ a (by grind),
      within₁ a (by grind)]

end Relink

section Order

variable {C : CType V K}

/-- On which side of an element a key lies, as the comparisons of `insert` and `erase` tell. -/
def CType.seek (C : CType V K) (key : K) (x : Nat × V) : Option Side :=
  if C.less key (C.getKey x.2) then some .left
  else if C.less (C.getKey x.2) key then some .right
  else none

def CType.Sorted (C : CType V K) (l : List (Nat × V)) : Prop :=
  l.Pairwise fun x y => C.less (C.getKey x.2) (C.getKey y.2)

theorem CType.asymm {a b : K} (less : C.less a b) : C.less b a = false := by
  rw [Bool.eq_false_iff]
  intro back
  have loop := C.trans less back
  rw [C.irrefl] at loop
  cases loop

theorem CType.Sorted.splits {l : List (Nat × V)} (sorted : C.Sorted l) (key : K) :
    Splits (C.seek key) l := by
  refine sorted.imp ?_
  intro x y less
  have back := C.asymm less
  refine ⟨?_, ?_, ?_⟩
  · intro low
    by_cases here : C.less key (C.getKey x.2) = true
    · simp [seek, C.trans here less]
    · simp only [seek, here, Bool.false_eq_true, if_false] at low
      split at low <;> cases low
  · intro high
    simp only [seek] at high ⊢
    split at high
    · cases high
    split at high
    next here =>
      have past := C.trans less here
      simp [past, C.asymm past]
    next => cases high
  · by_contra! both
    obtain ⟨first, second⟩ := both
    simp only [seek] at first second
    obtain here | here := C.cotrans key less
    · rw [C.asymm here] at first
      simp [here] at first
    · simp [here] at second

theorem seek_self (x : Nat × V) : C.seek (C.getKey x.2) x = none := by
  simp [CType.seek, C.irrefl]

end Order

section Erase

variable {h : Heap (Node V)} {p : Option Nat} {l r t : Cells V} {x : Nat × V} {k : Nat}
  {C : CType V K}

theorem effects_free {b : Nat} {old new : List Nat} (same : ∀ a, a ∈ old ↔ a ∈ new ∨ a = b) :
    Effects h (h.erase b) old new := by
  refine ⟨?_, ?_, ?_⟩
  · intro a mem
    exact .inl ((same a).mpr (.inl mem))
  · intro a outside _
    rw [Heap.block_erase, if_neg]
    rintro rfl
    exact outside ((same _).mpr (.inr rfl))
  · intro a mem outside
    obtain mem | rfl := (same a).mp mem
    · exact absurd mem outside
    · rw [Heap.block_erase, if_pos rfl]

theorem Linked.erase {b : Nat} (linked : Linked h t p) (out : b ∉ ids t) :
    Linked (h.erase b) t p := by
  apply linked.congr
  intro a mem
  rw [Heap.block_erase, if_neg]
  rintro rfl
  exact out mem

@[simp]
theorem ids_join : ids (join l r) = ids l ++ ids r := by
  simp only [ids, cells_join, List.map_append]

theorem mem_ids_node {a : Nat} : a ∈ ids (node l x k r) ↔ a ∈ ids l ∨ a = x.1 ∨ a ∈ ids r :=
  mem_ids_make (d := .left)

theorem nodup_node : (ids (node l x k r)).Nodup ↔ (ids l).Nodup ∧ (ids r).Nodup ∧
    x.1 ∉ ids l ∧ x.1 ∉ ids r ∧ ∀ a ∈ ids l, a ∉ ids r := nodup_make (d := .left)

variable (recurse : Option Nat → K → Program (Node V) (Option Nat × Bool)) {n : Nat}

theorem eraseNode_outer (linked : Linked h (node l x k r) p) (nodup : (ids (node l x k r)).Nodup)
    (outer : l = leaf ∨ r = leaf) :
    ∃ h' q, eraseNode C recurse n x.1 h = some ((root (join l r), true), h') ∧
      Linked h' (join l r) q ∧ Effects h h' (ids (node l x k r)) (ids (join l r)) := by
  obtain ⟨here, low, high⟩ := linked
  obtain ⟨-, -, outL, outR, -⟩ := nodup_node.mp nodup
  have effects : Effects h (h.erase x.1) (ids (node l x k r)) (ids (join l r)) := by
    apply effects_free
    intro a
    rw [mem_ids_node, ids_join, List.mem_append]
    grind
  have whole : join l r = if root l ≠ none then l else r := by
    obtain rfl | rfl := outer
    · rfl
    · cases l <;> rfl
  refine ⟨h.erase x.1, some x.1, ?_, ?_, effects⟩
  · have either : (nodeOf .left l x k r p).child .left = none ∨
        (nodeOf .left l x k r p).child .right = none := outer.imp root_eq_none.mpr root_eq_none.mpr
    rw [eraseNode, run_bind (run_child here .left), run_bind (run_child here .right),
      if_pos either, run_bind (run_free here), whole]
    change some ((if root l ≠ none then root l else root r, true), _) = _
    split <;> rfl
  · rw [whole]
    split
    · exact low.erase outL
    · exact high.erase outR

theorem eraseNode_inner {u : List (Frame V)} {s : Nat × V} {j : Nat} {c : Cells V}
    (linked : Linked h (node l x k r) p) (inner : l ≠ leaf)
    (down : r = plug u (node leaf s j c)) (enough : r.depth ≤ n) :
    eraseNode C recurse n x.1 h = (if some s.1 = root r then do
        setChild .left s.1 (root l)
        free x.1
        let s ← finish s.1 true
        pure (s, true)
      else do
        relink x.1 s.1 (root l) (root r) none (root c)
        let e ← element x.1
        let r ← child .right s.1
        let (r, deleted) ← recurse r (C.getKey e)
        setChild .right s.1 r
        let s ← finish s.1 deleted
        pure (s, deleted)) h := by
  obtain ⟨here, low, high⟩ := linked
  have some_ : ∃ b, root r = some b := by
    rw [← Option.ne_none_iff_exists', Ne, root_eq_none, down]
    intro nothing
    have cells := congrArg cells nothing
    rw [cells_plug] at cells
    cases cells
  obtain ⟨b, top⟩ := some_
  obtain ⟨z, rest, first, run⟩ := extreme_run .left n high top enough
  rw [Side.other, order_right, down, cells_plug] at first
  obtain ⟨rfl, -⟩ := List.cons.inj first
  have hereS : h.block s.1 = some (nodeOf .left leaf s j c (above u (some x.1))) := by
    rw [down, linked_plug] at high
    exact high.1.1
  have onRight : (nodeOf .left l x k r p).child .right = some b := top
  have both : ¬((nodeOf .left l x k r p).child .left = none ∨
      (nodeOf .left l x k r p).child .right = none) := by
    rintro (nothing | nothing)
    · exact inner (root_eq_none.mp nothing)
    · rw [onRight] at nothing
      cases nothing
  have next : successor n x.1 h = some (some s.1, h) := by
    rw [successor, neighbour, run_bind (run_child here .right), onRight]
    exact run_bind run
  rw [eraseNode, run_bind (run_child here .left), run_bind (run_child here .right), if_neg both,
    run_bind next, run_bind (run_deref s.1), run_bind (run_child hereS .left),
    run_bind (run_child hereS .right)]
  rfl

theorem eraseNode_next {s : Nat × V} {j : Nat} {c : Cells V}
    (linked : Linked h (node l x k (node leaf s j c)) p)
    (nodup : (ids (node l x k (node leaf s j c))).Nodup) (inner : l ≠ leaf)
    (enough : (node leaf s j c).depth ≤ n) :
    ∃ h' q, eraseNode C recurse n x.1 h = some ((root (join l (node leaf s j c)), true), h') ∧
      Linked h' (join l (node leaf s j c)) q ∧
      Effects h h' (ids (node l x k (node leaf s j c))) (ids (join l (node leaf s j c))) := by
  have steps := eraseNode_inner (u := []) (C := C) recurse linked inner rfl enough
  rw [if_pos (show some s.1 = root (node leaf s j c) from rfl)] at steps
  obtain ⟨here, low, hereS, -, highS⟩ := linked
  have parts := nodup
  simp only [nodup_node, mem_ids_node] at parts
  rw [join_pop inner rfl j]
  obtain ⟨h₁, run₁, linked₁, within₁⟩ := setChild_linked (d := .left) hereS (nodeOf_withChild l)
    low highS (nodup_node.mpr (by grind [ids_leaf]))
  have here₁ : h₁.block x.1 = some (nodeOf .left l x k (node leaf s j c) p) := by
    rw [within₁ x.1 (by grind [ids_leaf]), here]
  have linked₂ : Linked (h₁.erase x.1) (node l s j c) (some x.1) := by
    apply Linked.erase linked₁
    rw [mem_ids_make]
    grind
  obtain ⟨h₃, q, run₃, linked₃, within₃⟩ := rebalance_linked linked₂
    (nodup_node.mpr (by grind [ids_leaf]))
  refine ⟨h₃, q, ?_, linked₃, ?_⟩
  · rw [steps, run_bind run₁, run_bind (run_free here₁), finish, if_neg nofun]
    exact run_bind run₃
  · have first : Effects h h₁ (ids (node l x k (node leaf s j c)))
        (ids (node l x k (node leaf s j c))) := by
      apply (within₁.mono ?_).effects
      intro a mem
      simp only [mem_ids_node]
      grind
    have second : Effects h₁ (h₁.erase x.1) (ids (node l x k (node leaf s j c)))
        (ids (node l s j c)) := by
      apply effects_free
      intro a
      simp only [mem_ids_node, ids_leaf]
      grind
    rw [ids_rebalance]
    exact (first.trans second).trans within₃.effects

theorem eraseNode_deep {u : List (Frame V)} {s m : Nat × V} {j i : Nat} {c g : Cells V}
    (linked : Linked h (node l x k r) p) (nodup : (ids (node l x k r)).Nodup)
    (sorted : C.Sorted (node l x k r).cells) (inner : l ≠ leaf)
    (down : r = plug ((m, i, g) :: u) (node leaf s j c)) (enough : r.depth ≤ n)
    (again : ∀ {t p h}, t.depth = r.depth → Linked h t p → (ids t).Nodup → C.Sorted t.cells →
      ∃ h' q, recurse (root t) (C.getKey x.2) h =
          some ((root (t.erase (C.seek (C.getKey x.2))).1, (t.erase (C.seek (C.getKey x.2))).2), h') ∧
        Linked h' (t.erase (C.seek (C.getKey x.2))).1 q ∧
        Effects h h' (ids t) (ids (t.erase (C.seek (C.getKey x.2))).1)) :
    ∃ h' q, eraseNode C recurse n x.1 h = some ((root (join l r), true), h') ∧
      Linked h' (join l r) q ∧ Effects h h' (ids (node l x k r)) (ids (join l r)) := by
  have steps := eraseNode_inner (C := C) recurse linked inner down enough
  subst down
  obtain ⟨nodupL, nodupR, outL, outR, apart⟩ := nodup_node.mp nodup
  obtain ⟨nodupS, nodupU, apartU⟩ := nodup_plug.mp nodupR
  have partsS := nodup_node.mp nodupS
  simp only [mem_ids_plug, mem_ids_node, ids_leaf] at outR apart apartU
  obtain ⟨y, onY, top⟩ := root_plug (m, i, g) u
  have other : some s.1 ≠ root (plug ((m, i, g) :: u) (node leaf s j c)) := by
    rw [top]
    intro same
    exact apartU s.1 (by simp) (Option.some.inj same ▸ onY)
  rw [if_neg other] at steps
  obtain ⟨h₁, run₁, linkedR₁, linkedL₁, hereS₁, within₁⟩ := relink_linked linked nodup
  obtain ⟨r', first, cells⟩ : ∃ r', (plug ((m, i, g) :: u) (node leaf s j c)).pop = some (s, r') ∧
      r'.cells = c.cells ++ spineCells ((m, i, g) :: u) := by
    have cells := cells_plug ((m, i, g) :: u) (node leaf s j c)
    cases popped : (plug ((m, i, g) :: u) (node leaf s j c)).pop with
    | none =>
      rw [pop_leaf_iff.mp popped] at cells
      cases cells
    | some found =>
      obtain ⟨z, r'⟩ := found
      rw [cells_pop popped] at cells
      obtain ⟨rfl, rest⟩ := List.cons.inj cells
      exact ⟨r', rfl, rest⟩
  have parked : putFirst x k (plug ((m, i, g) :: u) (node leaf s j c)) =
      plug ((m, i, g) :: u) (node leaf x k c) := putFirst_plug x k _ nofun
  have cells' : (plug ((m, i, g) :: u) (node leaf x k c)).cells = x :: r'.cells := by
    rw [cells_plug, cells]
    rfl
  have sorted' : C.Sorted (x :: r'.cells) := by
    refine List.Pairwise.sublist ?_ sorted
    rw [cells_node, cells_pop first]
    exact (List.Sublist.cons_cons x (List.sublist_cons_self s _)).trans (List.sublist_append_right _ _)
  have erased : (plug ((m, i, g) :: u) (node leaf x k c)).erase (C.seek (C.getKey x.2)) =
      (r', true) := by
    rw [← parked]
    refine erase_putFirst k first (seek_self x) ?_
    intro z mem
    rw [CType.seek, if_pos ((List.pairwise_cons.mp sorted').1 z mem)]
  have nodup' : (ids (plug ((m, i, g) :: u) (node leaf x k c))).Nodup := by
    refine nodup_plug.mpr ⟨nodup_node.mpr ?_, nodupU, ?_⟩
    · grind [ids_leaf]
    · intro a mem
      rw [mem_ids_node] at mem
      grind [ids_leaf]
  obtain ⟨h₂, q, run₂, linked₂, effects₂⟩ := again (by rw [← parked, depth_putFirst]) linkedR₁
    nodup' (by rw [cells']; exact sorted')
  rw [erased] at run₂ linked₂ effects₂
  have hereX₁ := (linked_plug.mp linkedR₁).1.1
  have linked₁ : Linked h₁ (make .right (plug ((m, i, g) :: u) (node leaf x k c)) s j l)
      (some m.1) := linked_make.mpr ⟨hereS₁, linkedR₁, linkedL₁⟩
  have nodup₁ : (ids (make .right (plug ((m, i, g) :: u) (node leaf x k c)) s j l)).Nodup := by
    refine nodup_make.mpr ⟨nodup', nodupL, ?_⟩
    simp only [mem_ids_plug, mem_ids_node, ids_leaf]
    grind
  have nodup₂ : (ids r').Nodup := by
    rw [ids, cells'] at nodup'
    exact (List.nodup_cons.mp nodup').2
  obtain ⟨h₃, h₄, q', run₃, run₄, linked₄, effects₄⟩ :=
    finish_linked linked₁ nodup₁ linked₂ nodup₂ effects₂ true
  rw [join_pop inner first j]
  refine ⟨h₄, q', ?_, linked₄, ?_⟩
  · have hereS₁' : (nodeOf .left l s j (plug ((m, i, g) :: u) (node leaf x k c))
        (some m.1)).child .right = root (plug ((m, i, g) :: u) (node leaf x k c)) := rfl
    rw [steps, run_bind run₁, run_bind (run_element hereX₁), run_bind (run_child hereS₁ .right),
      hereS₁', nodeOf_element, run_bind run₂]
    exact (run_bind run₃).trans (run_bind run₄)
  · refine within₁.effects.trans ?_
    apply effects₄.among []
    · intro a
      simp only [mem_ids_make, mem_ids_node, mem_ids_plug, ids_leaf]
      grind
    · intro a
      simp only [ids_rebalance, mem_ids_make, mem_ids_node]
      grind

theorem CType.Sorted.sides (sorted : C.Sorted (node l x k r).cells) :
    C.Sorted l.cells ∧ C.Sorted r.cells := by
  rw [CType.Sorted, cells_node, List.pairwise_append, List.pairwise_cons] at sorted
  exact ⟨sorted.1, sorted.2.1.2⟩

theorem cells_erase (sorted : C.Sorted t.cells) (key : K) :
    (t.erase (C.seek key)).1.cells = t.cells.filter fun y => (C.seek key y).isSome :=
  (erase_spec (sorted.splits key)).1

theorem nodup_erase (nodup : (ids t).Nodup) (sorted : C.Sorted t.cells) (key : K) :
    (ids (t.erase (C.seek key)).1).Nodup := by
  rw [ids, cells_erase sorted]
  exact nodup.sublist (List.filter_sublist.map _)

theorem eraseAt_linked (C : CType V K) : ∀ (rounds : Nat) {t : Cells V} {p : Option Nat}
    {h : Heap (Node V)} (key : K), t.depth < rounds → Linked h t p → (ids t).Nodup →
    C.Sorted t.cells →
    ∃ h' q, eraseAt C rounds (root t) key h =
        some ((root (t.erase (C.seek key)).1, (t.erase (C.seek key)).2), h') ∧
      Linked h' (t.erase (C.seek key)).1 q ∧
      Effects h h' (ids t) (ids (t.erase (C.seek key)).1) := by
  intro rounds
  induction rounds with
  | zero =>
    intro t p h key enough
    cases enough
  | succ rounds ih =>
    intro t p h key enough linked nodup sorted
    cases t with
    | leaf => exact ⟨h, p, rfl, trivial, Within.effects fun a _ => rfl⟩
    | node l x k r =>
      obtain ⟨here, low, high⟩ := linked
      obtain ⟨nodupL, nodupR, -⟩ := nodup_node.mp nodup
      obtain ⟨sortedL, sortedR⟩ := sorted.sides
      rw [depth] at enough
      have descend : ∀ {d c o}, node l x k r = make d c x k o → Linked h c (some x.1) →
          (ids c).Nodup → C.Sorted c.cells → c.depth < rounds →
          ∃ h₁ h₂ h' q, eraseAt C rounds (root c) key h =
              some ((root (c.erase (C.seek key)).1, (c.erase (C.seek key)).2), h₁) ∧
            setChild d x.1 (root (c.erase (C.seek key)).1) h₁ = some ((), h₂) ∧
            finish x.1 (c.erase (C.seek key)).2 h₂ =
              some (root ((make d (c.erase (C.seek key)).1 x k o).finish
                (c.erase (C.seek key)).2), h') ∧
            Linked h' ((make d (c.erase (C.seek key)).1 x k o).finish
              (c.erase (C.seek key)).2) q ∧
            Effects h h' (ids (node l x k r)) (ids (make d (c.erase (C.seek key)).1 x k o)) := by
        intro d c o same below nodup' sorted' enough'
        obtain ⟨h₁, q, run₁, linked₁, effects₁⟩ := ih key enough' below nodup' sorted'
        have whole : Linked h (node l x k r) p := ⟨here, low, high⟩
        rw [same] at whole nodup ⊢
        obtain ⟨h₂, h', q', run₂, run₃, linked₃, effects₃⟩ := finish_linked whole nodup linked₁
          (nodup_erase nodup' sorted' key) effects₁ (c.erase (C.seek key)).2
        exact ⟨h₁, h₂, h', q', run₁, run₂, run₃, linked₃, effects₃⟩
      rw [root, eraseAt, run_bind (run_element here), nodeOf_element, HTree.erase]
      by_cases less : C.less key (C.getKey x.2) = true
      · obtain ⟨h₁, h₂, h', q, run₁, run₂, run₃, linked', effects⟩ :=
          descend (d := .left) rfl low nodupL sortedL (by omega)
        have side : C.seek key x = some .left := if_pos less
        rw [if_pos less, side]
        refine ⟨h', q, ?_, linked', by rwa [ids_finish]⟩
        exact (run_bind (run_child here .left)).trans ((run_bind run₁).trans
          ((run_bind run₂).trans (run_bind run₃)))
      rw [if_neg less]
      by_cases more : C.less (C.getKey x.2) key = true
      · obtain ⟨h₁, h₂, h', q, run₁, run₂, run₃, linked', effects⟩ :=
          descend (d := .right) rfl high nodupR sortedR (by omega)
        have side : C.seek key x = some .right := by rw [CType.seek, if_neg less, if_pos more]
        rw [if_pos more, side]
        refine ⟨h', q, ?_, linked', by rwa [ids_finish]⟩
        exact (run_bind (run_child here .right)).trans ((run_bind run₁).trans
          ((run_bind run₂).trans (run_bind run₃)))
      have side : C.seek key x = none := by rw [CType.seek, if_neg less, if_neg more]
      rw [if_neg more, side]
      by_cases outer : l = leaf ∨ r = leaf
      · exact eraseNode_outer _ ⟨here, low, high⟩ nodup outer
      rw [not_or] at outer
      have enough' : r.depth ≤ rounds := by omega
      obtain ⟨u, s, j, c, down⟩ := exists_plug outer.2
      cases u with
      | nil =>
        subst down
        exact eraseNode_next _ ⟨here, low, high⟩ nodup outer.1 enough'
      | cons f u =>
        obtain ⟨m, i, g⟩ := f
        refine eraseNode_deep _ ⟨here, low, high⟩ nodup sorted outer.1 down enough' ?_
        intro t p h same
        exact ih _ (by omega)

end Erase

end AvlTree
