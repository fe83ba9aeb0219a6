import UpanLibs.Transition
import UpanLibs.UiObject.Dispatch

/-!
What holds along every run of events, whatever actions of `Request` the handlers perform, as long as
they show no panel and recolour no menu: the calls follow a protocol of their own, and what is shown
agrees with the focus and the open menu.
-/
namespace Dispatch

open UIObject
open Transition

universe u v
variable {ι : Type u} {κ : Type v} [DecidableEq ι]

structure Watch (ι : Type u) where
  focused : Option ι
  menu : Option ι
  /-- A button was held in the last mouse event. -/
  held : Bool
  /-- The open menu has to be closed next. -/
  closing : Bool
  deriving DecidableEq, Repr

namespace Watch

def start : Watch ι := ⟨none, none, false, false⟩

def Ready (w : Watch ι) : Prop := w.closing = true → w.menu = none

instance (w : Watch ι) : Decidable w.Ready := inferInstanceAs (Decidable (_ → _))

def isMenu : Kind ι → Bool
  | .menu _ | .menuEntry _ _ => true
  | .button | .canvas => false

def Offers (c : Setting ι) (w : Watch ι) (entry : ι) : Prop :=
  w.menu.map c.kind = some (.menu (c.parent entry))

instance (c : Setting ι) (w : Watch ι) (entry : ι) : Decidable (w.Offers c entry) :=
  inferInstanceAs (Decidable (_ = _))

/-- The calls that are allowed, and what follows from them. -/
def next (c : Setting ι) (w : Watch ι) : Callback ι κ → Option (Watch ι)
  | .onMouseFocus o =>
      if w.focused = none ∧ w.Ready then some { w with focused := some o } else none
  | .onLoseMouseFocus o =>
      if w.focused = some o ∧ w.Ready then some { w with focused := none } else none
  | .onMouseEvent o event =>
      if w.focused = some o ∧ w.Ready then
        let outside := event.data.anyButtonPressed && !isMenu (c.kind o)
        some { w with held := event.data.anyButtonHeld, closing := outside }
      else none
  | .onKeyboardEvent _ _ => if w.menu = none then some w else none
  | .select menu true =>
      if w.menu = none ∧ isMenu (c.kind menu) = true then some { w with menu := some menu }
      else none
  | .select menu false => if w.menu = some menu then some { w with menu := none } else none
  | .invoke entry id name =>
      if w.focused = some entry ∧ c.kind entry = .menuEntry id name ∧ w.closing = false ∧
          (w.held = true ∨ w.Offers c entry) then
        some { w with closing := true }
      else none
  | .onEvent o _ => if w.focused = some o then some w else none

end Watch

mutual

def EntriesBelow (c : Setting ι) (above : List ι) : Objects ι → Prop
  | .node id _ children =>
      ((∃ i name, c.kind id = .menuEntry i name) → c.parent id ∈ above) ∧
        AllEntriesBelow c (id :: above) children

def AllEntriesBelow (c : Setting ι) (above : List ι) : List (Objects ι) → Prop
  | [] => True
  | child :: children => EntriesBelow c above child ∧ AllEntriesBelow c above children

end

/-- Menus with panels of their own, and entries in these panels. -/
structure Setting.Menus (c : Setting ι) : Prop where
  ownPanel : ∀ m n p, c.kind m = .menu p → c.kind n = .menu p → m = n
  panel : ∀ m p, c.kind m = .menu p → c.kind p = .canvas
  bar : ∀ m p, c.kind m = .menu p → c.kind (c.parent m) = .canvas
  entry : ∀ e id name, c.kind e = .menuEntry id name → ∃ m, c.kind m = .menu (c.parent e)

/-- The application leaves panels hidden or shown, and the colours of the menus as they are. -/
def Request.Polite (c : Setting ι) : Request ι → Prop
  | .setVisible o _ => ∀ m, c.kind m ≠ .menu o
  | .backgroundColor o _ =>
      Watch.isMenu (c.kind o) = false ∧ ∀ m p, c.kind m = .menu p → o ≠ p ∧ o ≠ c.parent m
  | .setFocus _ | .xy .. | .closeActiveMenu => True

/-- What is shown, for the object with the focus and the open menu. -/
structure Shows (c : Setting ι) (s : Gui ι κ) (focused menu : Option ι) : Prop where
  panel : ∀ m p, c.kind m = .menu p → (s.visible p = true ↔ menu = some m)
  selected : ∀ m p, c.kind m = .menu p →
    s.backgroundColor m = if menu = some m then 0xD2D1C8 else s.backgroundColor (c.parent m)
  hover : ∀ b, c.kind b = .button → (s.hover b = true ↔ focused = some b)
  entry : ∀ e id name, c.kind e = .menuEntry id name →
    s.backgroundColor e =
        (if focused = some e then 0x0000FF else s.backgroundColor (c.parent e)) ∧
      s.fgColor e = if focused = some e then 0xFFFFFF else 0

structure Inv (c : Setting ι) (s : Gui ι κ) (w : Watch ι) : Prop where
  calls : s.calls.foldlM (Watch.next c) Watch.start = some w
  menu : s.activeMenu = w.menu
  isMenu : ∀ m, w.menu = some m → ∃ p, c.kind m = .menu p
  shows : Shows c s w.focused w.menu
  below : EntriesBelow c [] s.objects

variable {c : Setting ι} {s t : Gui ι κ} {w w' : Watch ι}

theorem calls_called {callback : Callback ι κ}
    (calls : s.calls.foldlM (Watch.next c) Watch.start = some w)
    (allowed : w.next c callback = some w') :
    (s.called callback).calls.foldlM (Watch.next c) Watch.start = some w' := by
  simp only [Gui.called, List.foldlM_append, calls, List.foldlM_cons, List.foldlM_nil]
  simp [allowed]

theorem Inv.called (inv : Inv c s w) {callback : Callback ι κ}
    (allowed : w.next c callback = some w') (focused : w'.focused = w.focused)
    (menu : w'.menu = w.menu) : Inv c (s.called callback) w' where
  calls := calls_called inv.calls allowed
  menu := inv.menu.trans menu.symm
  isMenu := by
    rw [menu]
    exact inv.isMenu
  shows := by
    rw [focused, menu]
    exact ⟨inv.shows.panel, inv.shows.selected, inv.shows.hover, inv.shows.entry⟩
  below := inv.below

theorem select_visible {m p : ι} (kind : c.kind m = .menu p) (selected : Bool) :
    (s.select c m selected).visible = Function.update s.visible p selected := by
  simp [Gui.select, kind, Gui.setVisible, Gui.setBackgroundColor, Gui.called]

theorem select_backgroundColor {m p : ι} (kind : c.kind m = .menu p) (selected : Bool) :
    (s.select c m selected).backgroundColor = Function.update s.backgroundColor m
      (if selected then 0xD2D1C8 else s.backgroundColor (c.parent m)) := by
  simp [Gui.select, kind, Gui.setVisible, Gui.setBackgroundColor, Gui.called]

theorem select_same {m p : ι} (kind : c.kind m = .menu p) (selected : Bool) :
    (s.select c m selected).fgColor = s.fgColor ∧ (s.select c m selected).hover = s.hover ∧
      (s.select c m selected).objects = s.objects ∧
      (s.select c m selected).activeMenu = s.activeMenu ∧
      (s.select c m selected).mouseFocusedObject = s.mouseFocusedObject ∧
      (s.select c m selected).calls = s.calls ++ [.select m selected] := by
  simp [Gui.select, kind, Gui.setVisible, Gui.setBackgroundColor, Gui.called]

theorem Shows.select (menus : c.Menus) {focused before : Option ι}
    (shows_ : Shows c s focused before) {m p : ι} (kind : c.kind m = .menu p) (selected : Bool)
    (after : Option ι) (here : selected = true ↔ after = some m)
    (others : ∀ n, n ≠ m → (after = some n ↔ before = some n)) :
    Shows c (s.select c m selected) focused after := by
  obtain ⟨fg, hover, -⟩ := select_same (s := s) kind selected
  have bar := menus.bar m p kind
  constructor
  · intro n q kind'
    rw [select_visible kind]
    by_cases same : n = m
    · subst same
      cases kind.symm.trans kind'
      rw [Function.update_self, here]
    · have apart : q ≠ p := by
        intro eq
        subst eq
        exact same (menus.ownPanel n m q kind' kind)
      rw [Function.update_of_ne apart, shows_.panel n q kind', others n same]
  · intro n q kind'
    have bar' : c.parent n ≠ m := by
      intro eq
      have canvas := menus.bar n q kind'
      rw [eq, kind] at canvas
      cases canvas
    rw [select_backgroundColor kind, Function.update_of_ne bar']
    by_cases same : n = m
    · subst same
      rw [Function.update_self]
      simp only [here]
    · rw [Function.update_of_ne same, shows_.selected n q kind']
      simp only [others n same]
  · rw [hover]
    exact shows_.hover
  · intro e id name kind'
    have apart : e ≠ m := by
      intro eq
      rw [eq, kind] at kind'
      cases kind'
    have parent : c.parent e ≠ m := by
      intro eq
      obtain ⟨n, panel⟩ := menus.entry e id name kind'
      have canvas := menus.panel n _ panel
      rw [eq, kind] at canvas
      cases canvas
    rw [select_backgroundColor kind, fg, Function.update_of_ne apart, Function.update_of_ne parent]
    exact shows_.entry e id name kind'

omit [DecidableEq ι] in
theorem isMenu_of_kind {m p : ι} (kind : c.kind m = .menu p) : Watch.isMenu (c.kind m) = true := by
  rw [kind]
  rfl

structure Closed (c : Setting ι) (s t : Gui ι κ) (w w' : Watch ι) : Prop where
  inv : Inv c t w'
  watch : w' = { w with menu := none }
  mouse : t.mouseFocusedObject = s.mouseFocusedObject

theorem closeActiveMenu_inv (menus : c.Menus) (inv : Inv c s w) :
    Closed c s (s.closeActiveMenu c) w { w with menu := none } := by
  have menu := inv.menu
  unfold Gui.closeActiveMenu
  cases open_ : s.activeMenu with
  | none =>
    have same : { w with menu := none } = w := by
      rw [open_] at menu
      rw [menu]
    rw [same]
    exact ⟨inv, same.symm, rfl⟩
  | some m =>
    rw [open_] at menu
    obtain ⟨p, kind⟩ := inv.isMenu m menu.symm
    obtain ⟨-, -, objects, -, mouse, calls⟩ := select_same (s := s) kind false
    refine ⟨⟨?_, rfl, fun n none_ => (nomatch none_), ?_, ?_⟩, rfl, mouse⟩
    · have allowed : w.next c (.select m false : Callback ι κ) = some { w with menu := none } := by
        simp [Watch.next, ← menu]
      have called := calls_called inv.calls allowed
      simp only []
      rw [calls]
      exact called
    · have shown := inv.shows.select menus kind false none (by simp)
        (fun n apart => by simp [← menu, apart.symm])
      exact ⟨shown.panel, shown.selected, shown.hover, shown.entry⟩
    · simp only []
      rw [objects]
      exact inv.below

theorem open_inv (menus : c.Menus) (inv : Inv c s w) (closed : w.menu = none) {m p : ι}
    (kind : c.kind m = .menu p) :
    Inv c (Gui.select c { s with activeMenu := some m } m true) { w with menu := some m } := by
  obtain ⟨-, -, objects, active, -, calls⟩ :=
    select_same (s := { s with activeMenu := some m }) kind true
  refine ⟨?_, active, ?_, ?_, ?_⟩
  · have allowed : w.next c (.select m true : Callback ι κ) = some { w with menu := some m } := by
      simp [Watch.next, closed, isMenu_of_kind kind]
    rw [calls]
    exact calls_called inv.calls allowed
  · intro n same
    cases same
    exact ⟨p, kind⟩
  · have before : Shows c { s with activeMenu := some m } w.focused w.menu :=
      ⟨inv.shows.panel, inv.shows.selected, inv.shows.hover, inv.shows.entry⟩
    exact before.select menus kind true _ (by simp) (fun n apart => by simp [closed, apart.symm])
  · rw [objects]
    exact inv.below

/-! The tree keeps its shape. -/

mutual

theorem below_alter {target : ι} {becomes : Objects ι → Objects ι}
    (keeps : ∀ above t, EntriesBelow c above t → EntriesBelow c above (becomes t)) :
    ∀ (t : Objects ι) (above : List ι), EntriesBelow c above t →
      EntriesBelow c above (alter target becomes t)
  | .node id o children, above, below => by
      rw [alter]
      split
      · exact keeps above _ below
      · exact ⟨below.1, allBelow_alter keeps children _ below.2⟩

theorem allBelow_alter {target : ι} {becomes : Objects ι → Objects ι}
    (keeps : ∀ above t, EntriesBelow c above t → EntriesBelow c above (becomes t)) :
    ∀ (ts : List (Objects ι)) (above : List ι), AllEntriesBelow c above ts →
      AllEntriesBelow c above (alterAll target becomes ts)
  | [], _, _ => trivial
  | child :: children, above, ⟨first, rest⟩ =>
      ⟨below_alter keeps child above first, allBelow_alter keeps children above rest⟩

end

omit [DecidableEq ι] in
theorem allBelow_setAll (becomes : ι → UIObjectImpl → UIObjectImpl) :
    ∀ (ts : List (Objects ι)) (above : List ι), AllEntriesBelow c above ts →
      AllEntriesBelow c above (setAll becomes ts)
  | [], _, _ => trivial
  | .node _ _ children :: rest, above, ⟨⟨own, below⟩, after⟩ =>
      ⟨⟨own, allBelow_setAll becomes children _ below⟩, allBelow_setAll becomes rest above after⟩

omit [DecidableEq ι] in
mutual

theorem below_follow {f : Frame} {onResize : OnResize ι} (r : Resize) :
    ∀ (t : Objects ι) (above : List ι), EntriesBelow c above t →
      EntriesBelow c above (t.follow f onResize r)
  | .node id o children, above, ⟨own, below⟩ => by
      rw [Objects.follow]
      rcases resizeEdges (fun o => o.resizeEdge f false) o r with ⟨o, _ | r⟩
      · exact ⟨own, below⟩
      · exact ⟨own, allBelow_followAll r _ _ (allBelow_setAll (onResize id o) children _ below)⟩
termination_by t => t.count
decreasing_by
  rw [countAll_setAll]
  exact Nat.lt_succ_self _

theorem allBelow_followAll {f : Frame} {onResize : OnResize ι} (r : Resize) :
    ∀ (ts : List (Objects ι)) (above : List ι), AllEntriesBelow c above ts →
      AllEntriesBelow c above (followAll f onResize r ts)
  | [], _, _ => by
      rw [followAll]
      trivial
  | child :: children, above, ⟨first, rest⟩ => by
      rw [followAll]
      exact ⟨below_follow r child above first, allBelow_followAll r children above rest⟩
termination_by ts => countAll ts
decreasing_by
  · exact Nat.lt_succ_of_le (Nat.le_add_right _ _)
  · exact Nat.lt_succ_of_le (Nat.le_add_left _ _)

end

omit [DecidableEq ι] in
theorem below_resize {f : Frame} {onResize : OnResize ι} {isRoot : Bool} (r : Resize)
    (above : List ι) (t : Objects ι) (below : EntriesBelow c above t) :
    EntriesBelow c above (t.resize f onResize isRoot r) := by
  obtain ⟨id, o, children⟩ := t
  rw [Objects.resize]
  rcases resizeEdges (if isRoot then rootResizeEdge f true else fun o => o.resizeEdge f true) o r
    with ⟨o, _ | r⟩
  · exact below
  · have set := allBelow_setAll (onResize id o) children _ below.2
    exact ⟨below.1, allBelow_followAll r _ _ set⟩

structure Calm (c : Setting ι) (s t : Gui ι κ) (w w' : Watch ι) : Prop where
  inv : Inv c t w'
  focused : w'.focused = w.focused
  held : w'.held = w.held
  closing : w'.closing = w.closing
  menu : w'.menu = w.menu ∨ w'.menu = none
  mouse : t.mouseFocusedObject = s.mouseFocusedObject

theorem Closed.calm (closed : Closed c s t w w') : Calm c s t w w' := by
  obtain ⟨inv, rfl, mouse⟩ := closed
  exact ⟨inv, rfl, rfl, rfl, .inr rfl, mouse⟩

theorem Calm.refl (inv : Inv c s w) : Calm c s s w w := ⟨inv, rfl, rfl, rfl, .inl rfl, rfl⟩

theorem Calm.trans {u : Gui ι κ} {w'' : Watch ι} (first : Calm c s t w w')
    (second : Calm c t u w' w'') : Calm c s u w w'' where
  inv := second.inv
  focused := second.focused.trans first.focused
  held := second.held.trans first.held
  closing := second.closing.trans first.closing
  menu := by
    obtain same | none_ := second.menu
    · rw [same]
      exact first.menu
    · exact .inr none_
  mouse := second.mouse.trans first.mouse

theorem perform_calm (menus : c.Menus) (inv : Inv c s w) {r : Request ι} (polite : r.Polite c) :
    ∃ w', Calm c s (s.perform c r) w w' := by
  have shows_ := inv.shows
  cases r with
  | setFocus o =>
    exact ⟨w, ⟨inv.calls, inv.menu, inv.isMenu,
      ⟨shows_.panel, shows_.selected, shows_.hover, shows_.entry⟩, inv.below⟩,
      rfl, rfl, rfl, .inl rfl, rfl⟩
  | setVisible o visible =>
    refine ⟨w, ⟨inv.calls, inv.menu, inv.isMenu,
      ⟨?_, shows_.selected, shows_.hover, shows_.entry⟩, inv.below⟩, rfl, rfl, rfl, .inl rfl, rfl⟩
    intro m p kind
    have apart : p ≠ o := fun same => polite m (same ▸ kind)
    simp only [Gui.perform, Gui.setVisible]
    rw [Function.update_of_ne apart]
    exact shows_.panel m p kind
  | backgroundColor o color =>
    obtain ⟨plain, others⟩ := polite
    have apart {x : ι} (menu : Watch.isMenu (c.kind x) = true) : x ≠ o := by
      intro same
      rw [same, plain] at menu
      cases menu
    refine ⟨w, ⟨inv.calls, inv.menu, inv.isMenu,
      ⟨shows_.panel, ?_, shows_.hover, ?_⟩, inv.below⟩, rfl, rfl, rfl, .inl rfl, rfl⟩
    · intro m p kind
      simp only [Gui.perform, Gui.setBackgroundColor]
      rw [Function.update_of_ne (apart (isMenu_of_kind kind)),
        Function.update_of_ne (others m p kind).2.symm]
      exact shows_.selected m p kind
    · intro e id name kind
      obtain ⟨m, panel⟩ := menus.entry e id name kind
      simp only [Gui.perform, Gui.setBackgroundColor]
      rw [Function.update_of_ne (apart (by rw [kind]; rfl)),
        Function.update_of_ne (others m _ panel).1.symm]
      exact shows_.entry e id name kind
  | xy o x y =>
    refine ⟨w, ⟨inv.calls, inv.menu, inv.isMenu,
      ⟨shows_.panel, shows_.selected, shows_.hover, shows_.entry⟩, ?_⟩,
      rfl, rfl, rfl, .inl rfl, rfl⟩
    apply below_alter _ s.objects [] inv.below
    intro above t below
    cases t
    exact below
  | closeActiveMenu => exact ⟨_, (closeActiveMenu_inv menus inv).calm⟩

theorem performAll_calm (menus : c.Menus) {rs : List (Request ι)} (polite : ∀ r ∈ rs, r.Polite c)
    (inv : Inv c s w) : ∃ w', Calm c s (rs.foldl (Gui.perform c) s) w w' := by
  induction rs generalizing s w with
  | nil => exact ⟨w, .refl inv⟩
  | cons r rs ih =>
    obtain ⟨w', first⟩ := perform_calm menus inv (polite r List.mem_cons_self)
    obtain ⟨w'', rest⟩ := ih (fun r member => polite r (List.mem_cons_of_mem _ member)) first.inv
    exact ⟨w'', first.trans rest⟩

variable {app : List (Callback ι κ) → List (Request ι)}

theorem handle_calm (menus : c.Menus) (polite : ∀ calls, ∀ r ∈ app calls, r.Polite c)
    (inv : Inv c s w) {callback : Callback ι κ} {mid : Watch ι}
    (allowed : w.next c callback = some mid) (focused : mid.focused = w.focused)
    (menu : mid.menu = w.menu) : ∃ w', Calm c s (s.handle c app callback) mid w' := by
  obtain ⟨w', calm⟩ := performAll_calm menus (polite _) (inv.called allowed focused menu)
  exact ⟨w', calm.inv, calm.focused, calm.held, calm.closing, calm.menu, calm.mouse⟩

theorem handleEvent_calm (menus : c.Menus) (polite : ∀ calls, ∀ r ∈ app calls, r.Polite c)
    (inv : Inv c s w) {o : ι} (focused : w.focused = some o) (event : MouseEvent) :
    ∃ w', Calm c s (s.handleEvent c app o event) w w' := by
  unfold Gui.handleEvent
  split
  · exact handle_calm menus polite inv (by simp [Watch.next, focused]) rfl rfl
  · exact ⟨w, .refl inv⟩

/-! An entry under the cursor is one of a panel that is visible. -/

section Hit

variable {x y : Int} {e : ι} {visible : ι → Bool}

omit [DecidableEq ι] in
mutual

theorem hit_entry (entry : ∃ i name, c.kind e = .menuEntry i name) :
    ∀ (t : Objects ι) (above : List ι) (place : Canvas ι → Placed ι), EntriesBelow c above t →
      (∀ p ∈ above, visible p = true) →
        (∀ canvas, (place canvas).isVisible = true → canvas.getVisible = true) →
          ((hitTree c visible t).uiObjectUnderCursor x y place).2 = some e →
            visible (c.parent e) = true
  | .node id o children, above, place, ⟨own, below⟩, seen, shown, hit => by
      unfold hitTree Tree.uiObjectUnderCursor at hit
      simp only [] at hit
      split at hit
      next here =>
        have isVisible := (Bool.and_eq_true_iff.mp here).2
        have self : visible id = true := by
          apply shown (canvasOf c visible id o)
          unfold Placed.inside at isVisible
          split at isVisible
          · cases isVisible
          next visible_ => simpa using visible_
        have found (same : e = id) : visible (c.parent e) = true := by
          subst same
          exact seen _ (own entry)
        split at hit
        next => exact found (Option.some.inj hit).symm
        next mode _ =>
          have later := hits_entry entry children (id :: above)
            (place (canvasOf c visible id o)).child mode below
            (List.forall_mem_cons.mpr ⟨self, seen⟩) (fun canvas visible_ => by
              simp only [Placed.child] at visible_
              split at visible_
              · exact visible_
              · cases visible_)
          split at hit
          next _ _ child => exact later (by rw [child]; exact hit)
          next =>
            split at hit
            · exact found (Option.some.inj hit).symm
            · cases hit
      next => cases hit

theorem hits_entry (entry : ∃ i name, c.kind e = .menuEntry i name) :
    ∀ (ts : List (Objects ι)) (above : List ι) (place : Canvas ι → Placed ι) (mode : ResizeMode),
      AllEntriesBelow c above ts → (∀ p ∈ above, visible p = true) →
        (∀ canvas, (place canvas).isVisible = true → canvas.getVisible = true) →
          (childrenUnderCursor x y place mode (hitTrees c visible ts)).2 = some e →
            visible (c.parent e) = true
  | [], _, _, _, _, _, _, hit => by
      cases hit
  | child :: children, above, place, mode, ⟨first, rest⟩, seen, shown, hit => by
      unfold hitTrees childrenUnderCursor at hit
      have later := hits_entry entry children above place mode rest seen shown
      split at hit
      next _ _ found => exact later (by rw [found]; exact hit)
      next => exact hit_entry entry child above place first seen shown hit

end

end Hit

/-! The focus of the mouse. -/

theorem Shows.refocus (menus : c.Menus) {focused focused' menu : Option ι}
    (shows_ : Shows c s focused menu) {o : ι} {color fg : Nat} {hovered : Bool}
    (visible : t.visible = s.visible)
    (backgroundColor : t.backgroundColor = Function.update s.backgroundColor o color)
    (fgColor : t.fgColor = Function.update s.fgColor o fg)
    (hover : t.hover = Function.update s.hover o hovered)
    (others : ∀ x, x ≠ o → (focused' = some x ↔ focused = some x))
    (entry : ∀ id name, c.kind o = .menuEntry id name →
      color = (if focused' = some o then 0x0000FF else s.backgroundColor (c.parent o)) ∧
        fg = if focused' = some o then 0xFFFFFF else 0)
    (plain : (∀ id name, c.kind o ≠ .menuEntry id name) → color = s.backgroundColor o)
    (button : c.kind o = .button → (hovered = true ↔ focused' = some o)) :
    Shows c t focused' menu := by
  have colour {x : ι} (apart : ∀ id name, c.kind x ≠ .menuEntry id name) :
      t.backgroundColor x = s.backgroundColor x := by
    rw [backgroundColor]
    by_cases same : x = o
    · subst same
      rw [Function.update_self, plain apart]
    · rw [Function.update_of_ne same]
  constructor
  · rw [visible]
    exact shows_.panel
  · intro m p kind
    rw [colour (by rw [kind]; simp), colour (by rw [menus.bar m p kind]; simp)]
    exact shows_.selected m p kind
  · intro b kind
    rw [hover]
    by_cases same : b = o
    · subst same
      rw [Function.update_self]
      exact button kind
    · rw [Function.update_of_ne same, others b same]
      exact shows_.hover b kind
  · intro e id name kind
    obtain ⟨m, panel⟩ := menus.entry e id name kind
    rw [colour (x := c.parent e) (by rw [menus.panel m _ panel]; simp), backgroundColor, fgColor]
    by_cases same : e = o
    · subst same
      rw [Function.update_self, Function.update_self]
      exact entry id name kind
    · rw [Function.update_of_ne same, Function.update_of_ne same]
      simp only [others e same]
      exact shows_.entry e id name kind

theorem onLoseMouseFocus_inv (menus : c.Menus) (inv : Inv c s w) {o : ι}
    (focused : w.focused = some o) (ready : w.Ready) :
    Inv c (s.onLoseMouseFocus c o) { w with focused := none } ∧
      (s.onLoseMouseFocus c o).objects = s.objects ∧
      (s.onLoseMouseFocus c o).visible = s.visible := by
  have allowed : w.next c (.onLoseMouseFocus o : Callback ι κ) =
      some { w with focused := none } := by
    simp [Watch.next, focused, ready]
  have calls := calls_called inv.calls allowed
  have shows_ := inv.shows
  have others (x : ι) (apart : x ≠ o) : (none : Option ι) = some x ↔ w.focused = some x := by
    simp [focused, apart.symm]
  unfold Gui.onLoseMouseFocus
  simp only []
  cases kind : c.kind o with
  | menuEntry id name =>
    refine ⟨⟨calls, inv.menu, inv.isMenu, ?_, inv.below⟩, rfl, rfl⟩
    exact shows_.refocus menus rfl rfl rfl (Function.update_eq_self o s.hover).symm others
      (fun _ _ _ => ⟨rfl, rfl⟩) (fun plain => absurd kind (plain id name))
      (fun button => by rw [kind] at button; cases button)
  | button =>
    refine ⟨⟨calls, inv.menu, inv.isMenu, ?_, inv.below⟩, rfl, rfl⟩
    exact shows_.refocus menus rfl (Function.update_eq_self o s.backgroundColor).symm
      (Function.update_eq_self o s.fgColor).symm rfl others
      (fun id name entry => by rw [kind] at entry; cases entry) (fun _ => rfl) (fun _ => by simp)
  | menu p =>
    refine ⟨⟨calls, inv.menu, inv.isMenu, ?_, inv.below⟩, rfl, rfl⟩
    exact shows_.refocus menus rfl (Function.update_eq_self o s.backgroundColor).symm
      (Function.update_eq_self o s.fgColor).symm (Function.update_eq_self o s.hover).symm others
      (fun id name entry => by rw [kind] at entry; cases entry) (fun _ => rfl)
      (fun button => by rw [kind] at button; cases button)
  | canvas =>
    refine ⟨⟨calls, inv.menu, inv.isMenu, ?_, inv.below⟩, rfl, rfl⟩
    exact shows_.refocus menus rfl (Function.update_eq_self o s.backgroundColor).symm
      (Function.update_eq_self o s.fgColor).symm (Function.update_eq_self o s.hover).symm others
      (fun id name entry => by rw [kind] at entry; cases entry) (fun _ => rfl)
      (fun button => by rw [kind] at button; cases button)

theorem onMenuHover_inv (menus : c.Menus) (inv : Inv c s w) {m p : ι} (kind : c.kind m = .menu p) :
    ∃ menu, Inv c (s.onMenuHover c m) { w with menu := menu } ∧ (w.menu = none → menu = none) ∧
      (s.onMenuHover c m).mouseFocusedObject = s.mouseFocusedObject := by
  have menu := inv.menu
  unfold Gui.onMenuHover
  cases open_ : s.activeMenu with
  | none =>
    rw [open_] at menu
    exact ⟨w.menu, inv, fun same => same, rfl⟩
  | some active =>
    rw [open_] at menu
    simp only []
    split
    next =>
      have closed := closeActiveMenu_inv menus inv
      refine ⟨some m, open_inv menus closed.inv rfl kind, ?_, ?_⟩
      · intro none_
        rw [none_] at menu
        cases menu
      · obtain ⟨-, -, -, -, mouse, -⟩ :=
          select_same (s := { s.closeActiveMenu c with activeMenu := some m }) kind true
        exact mouse.trans closed.mouse
    next => exact ⟨w.menu, inv, fun same => same, rfl⟩

theorem onMouseFocus_inv (menus : c.Menus) (inv : Inv c s w) {o : ι} (focused : w.focused = none)
    (ready : w.Ready) : ∃ w', Inv c (s.onMouseFocus c o) w' ∧ w'.focused = some o ∧ w'.Ready ∧
      w'.held = w.held ∧ ((∀ p, c.kind o ≠ .menu p) → w'.menu = w.menu) ∧
      (s.onMouseFocus c o).mouseFocusedObject = s.mouseFocusedObject := by
  have allowed : w.next c (.onMouseFocus o : Callback ι κ) =
      some { w with focused := some o } := by
    simp [Watch.next, focused, ready]
  have calls := calls_called inv.calls allowed
  have shows_ := inv.shows
  have others (x : ι) (apart : x ≠ o) : some o = some x ↔ w.focused = some x := by
    simp [focused, apart.symm]
  unfold Gui.onMouseFocus
  simp only []
  cases kind : c.kind o with
  | menuEntry id name =>
    refine ⟨_, ⟨calls, inv.menu, inv.isMenu, ?_, inv.below⟩, rfl, ready, rfl, fun _ => rfl, rfl⟩
    exact shows_.refocus menus rfl rfl rfl (Function.update_eq_self o s.hover).symm others
      (fun _ _ _ => ⟨by simp, by simp⟩) (fun plain => absurd kind (plain id name))
      (fun button => by rw [kind] at button; cases button)
  | button =>
    refine ⟨_, ⟨calls, inv.menu, inv.isMenu, ?_, inv.below⟩, rfl, ready, rfl, fun _ => rfl, rfl⟩
    exact shows_.refocus menus rfl (Function.update_eq_self o s.backgroundColor).symm
      (Function.update_eq_self o s.fgColor).symm rfl others
      (fun id name entry => by rw [kind] at entry; cases entry) (fun _ => rfl) (fun _ => by simp)
  | menu p =>
    have shown : Shows c (s.called (.onMouseFocus o)) (some o) w.menu :=
      shows_.refocus menus rfl (Function.update_eq_self o s.backgroundColor).symm
        (Function.update_eq_self o s.fgColor).symm (Function.update_eq_self o s.hover).symm others
        (fun id name entry => by rw [kind] at entry; cases entry) (fun _ => rfl)
        (fun button => by rw [kind] at button; cases button)
    obtain ⟨menu, hovered, none_, mouse⟩ := onMenuHover_inv menus
      (w := { w with focused := some o }) ⟨calls, inv.menu, inv.isMenu, shown, inv.below⟩ kind
    refine ⟨_, hovered, rfl, ?_, rfl, fun plain => absurd rfl (plain p), mouse⟩
    intro closing
    exact none_ (ready closing)
  | canvas =>
    refine ⟨_, ⟨calls, inv.menu, inv.isMenu, ?_, inv.below⟩, rfl, ready, rfl, fun _ => rfl, rfl⟩
    exact shows_.refocus menus rfl (Function.update_eq_self o s.backgroundColor).symm
      (Function.update_eq_self o s.fgColor).symm (Function.update_eq_self o s.hover).symm others
      (fun id name entry => by rw [kind] at entry; cases entry) (fun _ => rfl)
      (fun button => by rw [kind] at button; cases button)

structure Quiet (c : Setting ι) (s : Gui ι κ) (w : Watch ι) : Prop where
  inv : Inv c s w
  focused : s.mouseFocusedObject = w.focused
  ready : w.Ready

theorem moveMouseFocus_quiet (menus : c.Menus) (quiet : Quiet c s w) (eventObject : Option ι) :
    ∃ w', Quiet c (s.moveMouseFocus c eventObject) w' ∧ w'.focused = eventObject ∧
      w'.held = w.held ∧
      ((∀ o p, eventObject = some o → c.kind o ≠ .menu p) → w'.menu = w.menu) := by
  obtain ⟨inv, focused, ready⟩ := quiet
  unfold Gui.moveMouseFocus
  cases eventObject with
  | none =>
    cases old : s.mouseFocusedObject with
    | none => exact ⟨w, ⟨inv, focused, ready⟩, by rw [← focused, old], rfl, fun _ => rfl⟩
    | some old_ =>
      obtain ⟨lost, -⟩ := onLoseMouseFocus_inv menus inv (by rw [← focused, old]) ready
      exact ⟨_, ⟨⟨lost.calls, lost.menu, lost.isMenu, ⟨lost.shows.panel, lost.shows.selected,
        lost.shows.hover, lost.shows.entry⟩, lost.below⟩, rfl, ready⟩, rfl, rfl, fun _ => rfl⟩
  | some o =>
    cases old : s.mouseFocusedObject with
    | none =>
      obtain ⟨w', gained, here, ready', held, menu, mouse⟩ :=
        onMouseFocus_inv (o := o) (s := { s with mouseFocusedObject := some o }) menus
          ⟨inv.calls, inv.menu, inv.isMenu, ⟨inv.shows.panel, inv.shows.selected,
            inv.shows.hover, inv.shows.entry⟩, inv.below⟩ (by rw [← focused, old]) ready
      exact ⟨w', ⟨gained, mouse.trans here.symm, ready'⟩, here, held,
        fun plain => menu fun p => plain o p rfl⟩
    | some old_ =>
      simp only []
      split
      next =>
        obtain ⟨lost, -⟩ := onLoseMouseFocus_inv menus inv (by rw [← focused, old]) ready
        obtain ⟨w', gained, here, ready', held, menu, mouse⟩ :=
          onMouseFocus_inv (o := o)
            (s := { s.onLoseMouseFocus c old_ with mouseFocusedObject := some o }) menus
            ⟨lost.calls, lost.menu, lost.isMenu, ⟨lost.shows.panel, lost.shows.selected,
              lost.shows.hover, lost.shows.entry⟩, lost.below⟩ rfl ready
        exact ⟨w', ⟨gained, mouse.trans here.symm, ready'⟩, here, held,
          fun plain => menu fun p => plain o p rfl⟩
      next same =>
        have same_ : old_ = o := by simpa using same
        exact ⟨w, ⟨inv, focused, ready⟩, by rw [← focused, old, same_], rfl, fun _ => rfl⟩

/-! One event. -/

theorem Inv.leftClickHold (inv : Inv c s w) (hold : ι → Bool) :
    Inv c { s with leftClickHold := hold } w :=
  ⟨inv.calls, inv.menu, inv.isMenu,
    ⟨inv.shows.panel, inv.shows.selected, inv.shows.hover, inv.shows.entry⟩, inv.below⟩

omit [DecidableEq ι] in
theorem Watch.ready_of_open (closing : w.closing = false) : w.Ready := by
  intro closing'
  rw [closing] at closing'
  cases closing'

theorem onMenuClick_inv (menus : c.Menus) (inv : Inv c s w) {m p : ι} (kind : c.kind m = .menu p) :
    ∃ menu, Inv c (s.onMenuClick c m) { w with menu := menu } ∧
      (s.onMenuClick c m).mouseFocusedObject = s.mouseFocusedObject := by
  have closed := closeActiveMenu_inv menus inv
  unfold Gui.onMenuClick
  split
  next => exact ⟨none, closed.inv, closed.mouse⟩
  next =>
    refine ⟨some m, open_inv menus closed.inv rfl kind, ?_⟩
    obtain ⟨-, -, -, -, mouse, -⟩ :=
      select_same (s := { s.closeActiveMenu c with activeMenu := some m }) kind true
    exact mouse.trans closed.mouse

theorem Calm.ready (calm : Calm c s t w w') (ready : w.Ready) : w'.Ready := by
  intro closing
  rw [calm.closing] at closing
  obtain same | none_ := calm.menu
  · rw [same]
    exact ready closing
  · exact none_

theorem outside_quiet (menus : c.Menus) (polite : ∀ calls, ∀ r ∈ app calls, r.Polite c)
    (inv : Inv c s w) {o : ι} (focused : w.focused = some o)
    (mouse : s.mouseFocusedObject = w.focused) {event : MouseEvent}
    (closing : w.closing = event.data.anyButtonPressed) :
    ∃ w', Quiet c (if event.data.anyButtonPressed = true then
      (s.handleEvent c app o event).closeActiveMenu c else s.handleEvent c app o event) w' := by
  obtain ⟨w', calm⟩ := handleEvent_calm menus polite inv focused event
  have mouse' : (s.handleEvent c app o event).mouseFocusedObject = w'.focused := by
    rw [calm.mouse, calm.focused]
    exact mouse
  split
  next =>
    have closed := closeActiveMenu_inv menus calm.inv
    exact ⟨_, closed.inv, closed.mouse.trans mouse', fun _ => rfl⟩
  next unpressed =>
    refine ⟨w', calm.inv, mouse', calm.ready (Watch.ready_of_open ?_)⟩
    rw [closing]
    exact Bool.eq_false_iff.mpr unpressed

theorem mouseEvent_quiet (menus : c.Menus) (polite : ∀ calls, ∀ r ∈ app calls, r.Polite c)
    (quiet : Quiet c s w) {o : ι} (focused : w.focused = some o) {event : MouseEvent}
    (offered : ∀ id name, c.kind o = .menuEntry id name →
      event.data.anyButtonHeld = true ∨ w.Offers c o) :
    ∃ w', Quiet c ((s.onMouseEvent c app o event).handleMouseEvent c event o) w' := by
  have allowed : w.next c (.onMouseEvent o event : Callback ι κ) =
      some { w with held := event.data.anyButtonHeld,
                    closing := event.data.anyButtonPressed && !Watch.isMenu (c.kind o) } := by
    simp [Watch.next, focused, quiet.ready]
  have start := quiet.inv.called allowed rfl rfl
  have mouse := quiet.focused
  unfold Gui.onMouseEvent Gui.handleMouseEvent
  simp only []
  cases kind : c.kind o with
  | menu p =>
    rw [kind] at start
    simp only [Watch.isMenu, Bool.not_true, Bool.and_false, ite_self] at start ⊢
    split
    next =>
      obtain ⟨menu, clicked, mouse'⟩ := onMenuClick_inv menus start kind
      obtain ⟨w', calm⟩ := handleEvent_calm menus polite clicked focused event
      refine ⟨w', calm.inv, ?_, calm.ready (Watch.ready_of_open rfl)⟩
      rw [calm.mouse, mouse', calm.focused]
      exact mouse
    next =>
      obtain ⟨w', calm⟩ := handleEvent_calm menus polite start focused event
      refine ⟨w', calm.inv, ?_, calm.ready (Watch.ready_of_open rfl)⟩
      rw [calm.mouse, calm.focused]
      exact mouse
  | menuEntry id name =>
    rw [kind] at start
    simp only [Watch.isMenu, Bool.not_true, Bool.and_false, ite_self] at start ⊢
    split
    next =>
      have chosen : Watch.next c { w with held := event.data.anyButtonHeld, closing := false }
          (.invoke o id name : Callback ι κ) =
          some { w with held := event.data.anyButtonHeld, closing := true } := by
        have either := offered id name kind
        simp only [Watch.next, focused, kind]
        rw [if_pos ⟨trivial, trivial, trivial, either⟩]
      obtain ⟨w', calm⟩ := handle_calm menus polite start chosen rfl rfl
      have closed := closeActiveMenu_inv menus calm.inv
      obtain ⟨w'', after⟩ := handleEvent_calm menus polite closed.inv
        (calm.focused.trans focused) event
      refine ⟨w'', after.inv, ?_, after.ready fun _ => rfl⟩
      rw [after.mouse, closed.mouse, calm.mouse, after.focused]
      exact mouse.trans calm.focused.symm
    next =>
      obtain ⟨w', calm⟩ := handleEvent_calm menus polite start focused event
      refine ⟨w', calm.inv, ?_, calm.ready (Watch.ready_of_open rfl)⟩
      rw [calm.mouse, calm.focused]
      exact mouse
  | button =>
    rw [kind] at start
    simp only [Watch.isMenu, Bool.not_false, Bool.and_true] at start ⊢
    have holds (hold : ι → Bool) := start.leftClickHold hold
    exact outside_quiet menus polite (holds _) focused mouse rfl
  | canvas =>
    rw [kind] at start
    simp only [Watch.isMenu, Bool.not_false, Bool.and_true] at start ⊢
    exact outside_quiet menus polite start focused mouse rfl

theorem findEventObject_quiet (quiet : Quiet c s w) (data : MouseData) :
    Quiet c (s.findEventObject c data).1 w ∧
      ∀ e id name, (s.findEventObject c data).2 = some e → c.kind e = .menuEntry id name →
        data.anyButtonHeld = true ∨ s.visible (c.parent e) = true := by
  have inv := quiet.inv
  have shows_ := inv.shows
  have same {t : Gui ι κ} (calls : t.calls = s.calls) (menu : t.activeMenu = s.activeMenu)
      (objects : t.objects = s.objects) (mouse : t.mouseFocusedObject = s.mouseFocusedObject)
      (visible : t.visible = s.visible) (background : t.backgroundColor = s.backgroundColor)
      (fg : t.fgColor = s.fgColor) (hover : t.hover = s.hover) : Quiet c t w := by
    refine ⟨⟨?_, ?_, inv.isMenu, ⟨?_, ?_, ?_, ?_⟩, ?_⟩, ?_, quiet.ready⟩
    · rw [calls]; exact inv.calls
    · rw [menu]; exact inv.menu
    · rw [visible]; exact shows_.panel
    · rw [background]; exact shows_.selected
    · rw [hover]; exact shows_.hover
    · rw [background, fg]; exact shows_.entry
    · rw [objects]; exact inv.below
    · rw [mouse]; exact quiet.focused
  unfold Gui.findEventObject
  split
  next free =>
    simp only []
    have entry {e : ι} {i : Int} {name : String} (kind : c.kind e = .menuEntry i name)
        (hit : ((hitTree c s.visible s.objects).uiObjectUnderCursor
          (data.x - s.objects.object.x) (data.y - s.objects.object.y) Placed.root).2 = some e) :
        s.visible (c.parent e) = true :=
      hit_entry ⟨i, name, kind⟩ s.objects [] Placed.root inv.below
        (fun p member => absurd member List.not_mem_nil) (fun canvas shown => shown) hit
    split
    next o found =>
      split
      · exact ⟨same rfl rfl rfl rfl rfl rfl rfl rfl, fun e id name here kind =>
          .inr (entry kind (found.trans here))⟩
      · exact ⟨same rfl rfl rfl rfl rfl rfl rfl rfl, fun e id name here kind =>
          .inr (entry kind (found.trans here))⟩
    next => exact ⟨same rfl rfl rfl rfl rfl rfl rfl rfl, fun e id name here => nomatch here⟩
  next held =>
    refine ⟨quiet, fun e id name _ _ => .inl ?_⟩
    simpa using held

theorem Quiet.resize (quiet : Quiet c s w) (o : ι) (r : Resize) : Quiet c (s.resize c o r) w := by
  have inv := quiet.inv
  refine ⟨⟨inv.calls, inv.menu, inv.isMenu,
    ⟨inv.shows.panel, inv.shows.selected, inv.shows.hover, inv.shows.entry⟩, ?_⟩,
    quiet.focused, quiet.ready⟩
  exact below_alter (fun above t => below_resize r above t) s.objects [] inv.below

theorem dispatchMouse_quiet (menus : c.Menus) (polite : ∀ calls, ∀ r ∈ app calls, r.Polite c)
    (quiet : Quiet c s w) (data : MouseData) : ∃ w', Quiet c (s.dispatchMouse c app data) w' := by
  obtain ⟨found, entry⟩ := findEventObject_quiet quiet data
  obtain ⟨w', moved, focused, -, same⟩ :=
    moveMouseFocus_quiet menus found (s.findEventObject c data).2
  unfold Gui.dispatchMouse
  simp only []
  cases eventObject : (s.findEventObject c data).2 with
  | none =>
    rw [eventObject] at moved
    exact ⟨w', moved⟩
  | some o =>
    rw [eventObject] at moved focused same
    simp only []
    split
    · exact ⟨w', moved.resize o _⟩
    · apply mouseEvent_quiet menus polite moved focused
      intro id name kind
      obtain held | visible := entry o id name eventObject kind
      · exact .inl held
      · right
        obtain ⟨m, panel⟩ := menus.entry o id name kind
        have active := (quiet.inv.shows.panel m _ panel).mp visible
        have plain : w'.menu = w.menu := by
          apply same
          intro o' p here menu
          cases here
          rw [kind] at menu
          cases menu
        unfold Watch.Offers
        rw [plain, active, Option.map_some, panel]

theorem dispatchKeyboard_quiet (menus : c.Menus)
    (polite : ∀ calls, ∀ r ∈ app calls, r.Polite c) (quiet : Quiet c s w) (event : κ) :
    ∃ w', Quiet c (s.dispatchKeyboard c app event) w' := by
  unfold Gui.dispatchKeyboard
  split
  next free =>
    have closed : w.menu = none := by
      rw [← quiet.inv.menu]
      simpa [Gui.isModelActive] using free
    split
    next o _ =>
      obtain ⟨w', calm⟩ := handle_calm menus polite quiet.inv
        (show w.next c (.onKeyboardEvent o event) = some w by simp [Watch.next, closed]) rfl rfl
      refine ⟨w', calm.inv, ?_, calm.ready quiet.ready⟩
      rw [calm.mouse, calm.focused]
      exact quiet.focused
    next => exact ⟨w, quiet⟩
  next => exact ⟨w, quiet⟩

theorem dispatch_quiet (menus : c.Menus) (polite : ∀ calls, ∀ r ∈ app calls, r.Polite c)
    (quiet : Quiet c s w) (e : Event κ) : ∃ w', Quiet c (dispatch c app s e) w' := by
  cases e with
  | mouse data => exact dispatchMouse_quiet menus polite quiet data
  | keyboard event => exact dispatchKeyboard_quiet menus polite quiet event

structure Fresh (c : Setting ι) (s : Gui ι κ) : Prop where
  calls : s.calls = []
  activeMenu : s.activeMenu = none
  mouse : s.mouseFocusedObject = none
  shows : Shows c s none none
  below : EntriesBelow c [] s.objects

theorem Fresh.quiet (fresh : Fresh c s) : Quiet c s Watch.start where
  inv := ⟨by rw [fresh.calls]; rfl, fresh.activeMenu, fun m none_ => (nomatch none_), fresh.shows,
    fresh.below⟩
  focused := fresh.mouse
  ready := fun _ => rfl

theorem run_quiet (menus : c.Menus) (polite : ∀ calls, ∀ r ∈ app calls, r.Polite c)
    (fresh : Fresh c s) (es : List (Event κ)) : ∃ w, Quiet c (es.foldl (dispatch c app) s) w := by
  suffices all : ∀ (es : List (Event κ)) (s : Gui ι κ) (w : Watch ι), Quiet c s w →
      ∃ w', Quiet c (es.foldl (dispatch c app) s) w' from all es s _ fresh.quiet
  intro es
  induction es with
  | nil => exact fun s w quiet => ⟨w, quiet⟩
  | cons e es ih =>
    intro s w quiet
    obtain ⟨w', next⟩ := dispatch_quiet menus polite quiet e
    exact ih _ w' next

def menuKind : Nat → Kind Nat
  | 2 => .menu 4
  | 3 => .menu 5
  | 6 => .menuEntry 10 "Open"
  | 7 => .menuEntry 11 "Clear"
  | _ => .canvas

def menuParent : Nat → Nat
  | 2 | 3 => 1
  | 6 => 4
  | 7 => 5
  | _ => 0

def menuSetting : Setting Nat where
  frame := ⟨400, 400⟩
  kind := menuKind
  parent := menuParent
  borderThickness _ := 0
  backgroundColorAlpha _ := 100
  borderColorAlpha _ := 100
  isHResizable _ := false
  isVResizable _ := false
  captureMouseEvents _ := true
  isKeyboardFocusable o := o = 8
  hasMouseEventHandler _ := false
  onResize _ _ _ _ o := o

def fixed (x y width height : Int) : UIObjectImpl :=
  .create ⟨400, 400⟩ x y width height .LEFT_FIXED .TOP_FIXED

def menuWindow : Gui Nat Char where
  objects := .node 0 (fixed 10 10 200 200) [.node 8 (fixed 0 30 200 170) [],
    .node 1 (fixed 0 0 200 30) [.node 2 (fixed 0 0 50 30) [], .node 3 (fixed 50 0 50 30) []],
    .node 4 (fixed 0 30 100 30) [.node 6 (fixed 0 0 100 30) []],
    .node 5 (fixed 50 30 100 30) [.node 7 (fixed 0 0 100 30) []]]
  visible o := o ≠ 4 && o ≠ 5
  backgroundColor _ := 0xA59E9D
  fgColor _ := 0
  hover _ := false
  leftClickHold _ := false
  activeMenu := none
  keyboardFocusedObject := some 0
  mouseFocusedObject := none
  resizeMode := .NA
  resizes := 0
  calls := []

theorem menuKind_cases {o : Nat} {k : Kind Nat} (kind : menuKind o = k) :
    (o = 2 ∧ k = .menu 4) ∨ (o = 3 ∧ k = .menu 5) ∨ (o = 6 ∧ k = .menuEntry 10 "Open") ∨
      (o = 7 ∧ k = .menuEntry 11 "Clear") ∨ k = .canvas := by
  subst kind
  unfold menuKind
  split <;> simp

theorem menuSetting_menus : menuSetting.Menus := by
  constructor
  · intro m n p kind kind'
    rcases menuKind_cases kind with ⟨rfl, h⟩ | ⟨rfl, h⟩ | ⟨rfl, h⟩ | ⟨rfl, h⟩ | h <;> cases h <;>
      rcases menuKind_cases kind' with ⟨rfl, h⟩ | ⟨rfl, h⟩ | ⟨rfl, h⟩ | ⟨rfl, h⟩ | h <;> cases h <;>
      rfl
  · intro m p kind
    rcases menuKind_cases kind with ⟨rfl, h⟩ | ⟨rfl, h⟩ | ⟨rfl, h⟩ | ⟨rfl, h⟩ | h <;> cases h <;>
      rfl
  · intro m p kind
    rcases menuKind_cases kind with ⟨rfl, h⟩ | ⟨rfl, h⟩ | ⟨rfl, h⟩ | ⟨rfl, h⟩ | h <;> cases h <;>
      rfl
  · intro e id name kind
    rcases menuKind_cases kind with ⟨rfl, h⟩ | ⟨rfl, h⟩ | ⟨rfl, h⟩ | ⟨rfl, h⟩ | h <;> cases h
    · exact ⟨2, rfl⟩
    · exact ⟨3, rfl⟩

theorem menuWindow_fresh : Fresh menuSetting menuWindow := by
  refine ⟨rfl, rfl, rfl,
    ⟨?_, fun m p _ => rfl, fun b kind => ?_, fun e id name _ => ⟨rfl, rfl⟩⟩, ?_⟩
  · intro m p kind
    rcases menuKind_cases kind with ⟨rfl, h⟩ | ⟨rfl, h⟩ | ⟨rfl, h⟩ | ⟨rfl, h⟩ | h <;> cases h <;>
      simp [menuWindow]
  · rcases menuKind_cases kind with ⟨rfl, h⟩ | ⟨rfl, h⟩ | ⟨rfl, h⟩ | ⟨rfl, h⟩ | h <;> cases h
  · have plain {o : Nat} (none_ : ∀ i name, menuSetting.kind o ≠ .menuEntry i name)
        {above : List Nat} :
        (∃ i name, menuSetting.kind o = .menuEntry i name) → menuSetting.parent o ∈ above := by
      rintro ⟨i, name, entry⟩
      exact absurd entry (none_ i name)
    have other (o : Nat) (kind : Watch.isMenu (menuKind o) = false ∨ ∃ p, menuKind o = .menu p)
        {above : List Nat} :
        (∃ i name, menuSetting.kind o = .menuEntry i name) → menuSetting.parent o ∈ above := by
      apply plain
      intro i name entry
      have entry_ : menuKind o = .menuEntry i name := entry
      rw [entry_] at kind
      obtain menu | ⟨p, menu⟩ := kind
      · cases menu
      · cases menu
    refine ⟨other 0 (.inl rfl), ⟨other 8 (.inl rfl), trivial⟩, ⟨other 1 (.inl rfl),
      ⟨other 2 (.inr ⟨4, rfl⟩), trivial⟩, ⟨other 3 (.inr ⟨5, rfl⟩), trivial⟩, trivial⟩,
      ⟨other 4 (.inl rfl), ⟨fun _ => ?_, trivial⟩, trivial⟩,
      ⟨other 5 (.inl rfl), ⟨fun _ => ?_, trivial⟩, trivial⟩, trivial⟩
    · exact List.mem_cons_self
    · exact List.mem_cons_self

def chosenEntry (calls : List (Callback Nat Char)) : List (Request Nat) :=
  match calls.getLast? with
  | some (.invoke ..) => [.setFocus 8, .closeActiveMenu]
  | _ => []

def pointer (x y : Int) (left : ButtonState) : Event Char :=
  .mouse ⟨x, y, 0, 0, left, .NORMAL, .NORMAL, false, false, false⟩

theorem chosenEntry_polite (calls : List (Callback Nat Char)) :
    ∀ r ∈ chosenEntry calls, r.Polite menuSetting := by
  unfold chosenEntry
  split <;> simp [Request.Polite]

def chooseEntry : List (Event Char) :=
  [pointer 20 20 .NORMAL, pointer 20 20 .PRESSED, pointer 20 20 .RELEASED, .keyboard 'a',
    pointer 70 20 .NORMAL, pointer 70 50 .NORMAL, pointer 70 50 .PRESSED, .keyboard 'b']

/-- Whatever events arrive and whatever polite requests the handlers make, the calls keep to the
    protocol: the focus is taken before it is given, events go to the object that has it, no key is
    delivered past an open menu, and an entry is chosen from the open menu, which is then closed, or
    with another button held down. -/
theorem calls_follow_protocol (menus : c.Menus) (polite : ∀ calls, ∀ r ∈ app calls, r.Polite c)
    (fresh : Fresh c s) (es : List (Event κ)) :
    let t := es.foldl (dispatch c app) s
    ∃ w, t.calls.foldlM (Watch.next c) Watch.start = some w ∧ w.Ready ∧
      w.focused = t.mouseFocusedObject ∧ w.menu = t.activeMenu := by
  obtain ⟨w, quiet⟩ := run_quiet menus polite fresh es
  exact ⟨w, quiet.inv.calls, quiet.ready, quiet.focused.symm, quiet.inv.menu.symm⟩

theorem calls_follow_protocol_chosen :
    let t := chooseEntry.foldl (dispatch menuSetting chosenEntry) menuWindow
    .invoke 7 11 "Clear" ∈ t.calls ∧ t.keyboardFocusedObject = some 8 ∧
      ∃ w, t.calls.foldlM (Watch.next menuSetting) Watch.start = some w ∧ w.Ready ∧
        w.focused = t.mouseFocusedObject ∧ w.menu = t.activeMenu :=
  ⟨by decide, by decide,
    calls_follow_protocol menuSetting_menus chosenEntry_polite menuWindow_fresh chooseEntry⟩

/-- The open menu is the only one that is selected and whose panel is visible, and the object with
    the focus of the mouse is the only one that is highlighted. -/
theorem display_follows_focus (menus : c.Menus) (polite : ∀ calls, ∀ r ∈ app calls, r.Polite c)
    (fresh : Fresh c s) (es : List (Event κ)) :
    let t := es.foldl (dispatch c app) s
    Shows c t t.mouseFocusedObject t.activeMenu := by
  obtain ⟨w, quiet⟩ := run_quiet menus polite fresh es
  intro t
  rw [quiet.focused, quiet.inv.menu]
  exact quiet.inv.shows

theorem display_follows_focus_hovered :
    let t := (chooseEntry.take 5).foldl (dispatch menuSetting chosenEntry) menuWindow
    t.visible 4 = false ∧ t.visible 5 = true ∧
      Shows menuSetting t t.mouseFocusedObject t.activeMenu :=
  ⟨by decide, by decide, display_follows_focus menuSetting_menus chosenEntry_polite
    menuWindow_fresh (chooseEntry.take 5)⟩

end Dispatch
