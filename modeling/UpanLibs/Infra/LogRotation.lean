import UpanLibs.Infra.Logger

/-!
The names of rotated logs: a rotation takes the next number after those of the directory, over any
run of messages and restarts on one path.
-/
namespace Logger

open Inet (Digit value)

def INT_MAX : Int := 2147483647

/-! The digits of a number. -/

theorem value_concat (f : Text) (ch : UInt8) : value (f ++ [ch]) = value f * 10 + (ch.toNat - 48) := by
  simp only [value, List.foldl_append, List.foldl_cons, List.foldl_nil]

theorem digitLoop_spec (k : Nat) {n room : Nat} (small : n < 10 ^ (k + 1)) (enough : k + 1 < room)
    (acc : Text) :
    ∃ ds, digitLoop room n acc = ds ++ acc ∧ ds ≠ [] ∧ (∀ ch ∈ ds, Digit ch) ∧ value ds = n
      ∧ ds.length ≤ k + 1 := by
  induction k generalizing n room acc with
  | zero =>
    obtain ⟨room, rfl⟩ : ∃ r, room = r + 1 := ⟨room - 1, by omega⟩
    have one : n < 10 := by simpa using small
    have digit := Inet.digit_ofNat (by omega : n % 10 < 10)
    refine ⟨[UInt8.ofNat (n % 10 + 48)], ?_, by simp, ?_, ?_, by simp⟩
    · rw [digitLoop, if_neg (by omega), if_pos (by omega)]
      rfl
    · intro ch member
      exact List.mem_singleton.mp member ▸ digit.1
    · have read := value_concat [] (UInt8.ofNat (n % 10 + 48))
      rw [List.nil_append, digit.2] at read
      rw [read]
      simp only [value, List.foldl_nil]
      omega
  | succ k ih =>
    obtain ⟨room, rfl⟩ : ∃ r, room = r + 1 := ⟨room - 1, by omega⟩
    have digit := Inet.digit_ofNat (by omega : n % 10 < 10)
    rw [digitLoop, if_neg (by omega)]
    split
    next last =>
      refine ⟨[UInt8.ofNat (n % 10 + 48)], rfl, by simp, ?_, ?_, by simp⟩
      · intro ch member
        exact List.mem_singleton.mp member ▸ digit.1
      · have read := value_concat [] (UInt8.ofNat (n % 10 + 48))
        rw [List.nil_append, digit.2] at read
        rw [read]
        simp only [value, List.foldl_nil]
        omega
    next =>
      have rest : n / 10 < 10 ^ (k + 1) := by
        rw [pow_succ] at small
        omega
      have inner : k + 1 < room := by omega
      obtain ⟨ds, text, _, digits, read, short⟩ := ih rest inner (UInt8.ofNat (n % 10 + 48) :: acc)
      refine ⟨ds ++ [UInt8.ofNat (n % 10 + 48)], ?_, by simp, ?_, ?_, ?_⟩
      · rw [text, List.append_assoc]
        rfl
      · intro ch member
        rw [List.mem_append, List.mem_singleton] at member
        rcases member with high | rfl
        · exact digits ch high
        · exact digit.1
      · rw [value_concat, read, digit.2]
        omega
      · rw [List.length_append, List.length_singleton]
        omega

theorem to_string_spec {n : Nat} (small : n < 10 ^ 18) :
    to_string n ≠ [] ∧ (∀ ch ∈ to_string n, Digit ch) ∧ value (to_string n) = n
      ∧ (to_string n).length ≤ 18 := by
  obtain ⟨ds, text, some_, digits, read, short⟩ := digitLoop_spec 17 small (by decide : 18 < 128) []
  rw [List.append_nil] at text
  rw [to_string, text]
  exact ⟨some_, digits, read, short⟩

theorem atoi_to_string {n : Nat} (small : n ≤ 2147483647) : atoi (to_string n) = n := by
  obtain ⟨_, digits, read, short⟩ := to_string_spec (n := n) (by omega)
  have power : 10 ^ (to_string n).length ≤ 10 ^ 18 := Nat.pow_le_pow_right (by decide) short
  have loop : Inet.strtolDigits 0 (to_string n) = n :=
    (Inet.strtolDigits_eq digits (by omega)).trans read
  rw [atoi, Inet.strtol_digits digits, loop, toInt, Inet.LONG_MAX]
  have same : (min n 9223372036854775807 : Nat) = n := by omega
  rw [same]
  exact Int.bmod_eq_of_le (by omega) (by omega)

/-! The path of a rotated file. -/

theorem strrchr_absent {ch : UInt8} {text : Text} (absent : ch ∉ text) :
    strrchr ch text = none := by
  induction text with
  | nil => rfl
  | cons c text ih =>
    rw [List.mem_cons, not_or] at absent
    rw [strrchr, ih absent.2]
    exact if_neg (Ne.symm absent.1)

theorem strrchr_append {ch : UInt8} {behind : Text} (absent : ch ∉ behind) (front : Text) :
    strrchr ch (front ++ behind) = strrchr ch front := by
  induction front with
  | nil => exact strrchr_absent absent
  | cons c front ih => rw [List.cons_append, strrchr, strrchr, ih]

theorem strrchr_lt {ch : UInt8} {text : Text} {n : Nat} (found : strrchr ch text = some n) :
    n < text.length := by
  induction text generalizing n with
  | nil => cases found
  | cons c text ih =>
    rw [strrchr] at found
    cases later : strrchr ch text with
    | none =>
      rw [later] at found
      simp only at found
      split at found
      · cases found
        exact Nat.succ_pos _
      · cases found
    | some m =>
      rw [later] at found
      cases found
      exact Nat.succ_lt_succ (ih later)

theorem dirname_append {suffix : Text} (plain : slash ∉ suffix) (path : Text) :
    dirname (path ++ suffix) = dirname path := by
  rw [dirname, dirname, strrchr_append plain]
  cases found : strrchr slash path with
  | none => rfl
  | some n =>
    have inside := strrchr_lt found
    simp only [List.take_append_of_le_length (Nat.le_of_lt inside)]

theorem basename_append {suffix : Text} (plain : slash ∉ suffix) (path : Text) :
    basename (path ++ suffix) = basename path ++ suffix := by
  rw [basename, basename, strrchr_append plain]
  cases found : strrchr slash path with
  | none => rfl
  | some n => exact List.drop_append_of_le_length (strrchr_lt found)

theorem isDigit_of {ch : UInt8} (digit : Digit ch) : isDigit ch = true := by
  obtain ⟨low, high⟩ := digit
  simp only [isDigit, Bool.and_eq_true, decide_eq_true_eq]
  exact ⟨low, high⟩

theorem isRotationFile_self (base : Text) : isRotationFile base base = none := by
  rw [isRotationFile, if_pos (.inl (Nat.le_refl _))]

theorem isRotationFile_to_string (base : Text) {n : Nat} (small : n ≤ 2147483647) :
    isRotationFile (base ++ dot :: to_string n) base = some (n : Int) := by
  obtain ⟨some_, digits, _⟩ := to_string_spec (n := n) (by omega)
  have named : ¬ ((base ++ dot :: to_string n).length ≤ base.length
      ∨ (base ++ dot :: to_string n).take base.length ≠ base
      ∨ (base ++ dot :: to_string n)[base.length]? ≠ some dot) := by
    rw [not_or, not_or, not_not, not_not]
    refine ⟨?_, List.take_left, ?_⟩
    · rw [List.length_append, List.length_cons]
      omega
    · rw [List.getElem?_append_right (Nat.le_refl _), Nat.sub_self, List.getElem?_cons_zero]
  have suffix : (base ++ dot :: to_string n).drop (base.length + 1) = to_string n := by
    rw [← List.drop_drop, List.drop_left, List.drop_succ_cons, List.drop_zero]
  have all : (to_string n).all isDigit = true :=
    List.all_eq_true.mpr fun ch member => isDigit_of (digits ch member)
  rw [isRotationFile, if_neg named]
  simp only [suffix]
  rw [if_neg some_, if_pos all, atoi_to_string small]

/-! The largest number of a directory. -/

theorem maxSequence_spec (base : Text) (entries : List Text) (start : Int) :
    let max := entries.foldl (fun maxSequence entry =>
      match isRotationFile entry base with
      | some sequence => if sequence > maxSequence then sequence else maxSequence
      | none => maxSequence) start
    start ≤ max ∧ ∀ e ∈ entries, ∀ q, isRotationFile e base = some q → q ≤ max := by
  induction entries generalizing start with
  | nil => exact ⟨Int.le_refl start, by simp⟩
  | cons entry entries ih =>
    intro max
    have next : start ≤ (match isRotationFile entry base with
        | some sequence => if sequence > start then sequence else start
        | none => start)
        ∧ ∀ q, isRotationFile entry base = some q → q ≤ (match isRotationFile entry base with
          | some sequence => if sequence > start then sequence else start
          | none => start) := by
      cases isRotationFile entry base with
      | none => exact ⟨Int.le_refl start, by simp⟩
      | some sequence =>
        simp only [Option.some.injEq, forall_eq']
        split <;> omega
    obtain ⟨grown, own⟩ := next
    obtain ⟨more, all⟩ := ih (match isRotationFile entry base with
        | some sequence => if sequence > start then sequence else start
        | none => start)
    refine ⟨grown.trans more, ?_⟩
    intro e member q named
    rcases List.mem_cons.mp member with rfl | later
    · exact (own q named).trans more
    · exact all e later q named

theorem mem_open {fs : Fs} {path dir e : Text} (member : e ∈ fs dir) (good : Bool) :
    e ∈ open_ fs path good dir := by
  rw [open_]
  split
  · simp only
    split
    · split
      · exact member
      · exact List.mem_cons_of_mem _ member
    · exact member
  · exact member

theorem mem_of_open {fs : Fs} {path dir e : Text} {good : Bool} (member : e ∈ open_ fs path good dir) :
    e = basename path ∨ e ∈ fs dir := by
  rw [open_] at member
  split at member
  · simp only at member
    split at member
    · split at member
      · exact .inr member
      · exact List.mem_cons.mp member
    · exact .inr member
  · exact .inr member

theorem basename_open (fs : Fs) (path : Text) :
    basename path ∈ open_ fs path true (dirname path) := by
  simp only [open_, if_true]
  split
  next here => exact here
  next => exact List.mem_cons_self

/-- What is known on the way: the counter is at least each number in the directory, where all
    rotated files are with the numbers they were given. -/
structure Kept (path : Text) (s : State) : Prop where
  onPath : s.isGood = true → s.logFilePath = path
  here : s.isGood = true → basename path ∈ s.fs (dirname path)
  bounded : s.isGood = true → ∀ e ∈ s.fs (dirname path), ∀ q,
    isRotationFile e (basename path) = some q → q ≤ s.maxRotationLogSequence
  counted : s.isGood = true → 0 ≤ s.maxRotationLogSequence
  used : ∀ r ∈ s.rotations, r.name ∈ s.fs (dirname path)
    ∧ isRotationFile r.name (basename path) = some r.sequence
  fresh : ∀ r ∈ s.rotations, r.name ∉ r.entries
  increasing : s.rotations.Pairwise fun r q => r.sequence < q.sequence

/-- No rotation starts with the counter at its last value. -/
def Counts (s : State) : Prop := ∀ r ∈ s.rotations, r.last < INT_MAX

variable {path : Text} {s : State}

theorem Kept.congr {s' : State} (kept : Kept path s) (logFilePath : s'.logFilePath = s.logFilePath)
    (isGood : s'.isGood = s.isGood)
    (counter : s'.maxRotationLogSequence = s.maxRotationLogSequence) (fs : s'.fs = s.fs)
    (rotations : s'.rotations = s.rotations) : Kept path s' := by
  constructor
  · rw [isGood, logFilePath]
    exact kept.onPath
  · rw [isGood, fs]
    exact kept.here
  · rw [isGood, fs, counter]
    exact kept.bounded
  · rw [isGood, counter]
    exact kept.counted
  · rw [rotations, fs]
    exact kept.used
  · rw [rotations]
    exact kept.fresh
  · rw [rotations]
    exact kept.increasing

theorem kept_restart (kept : Kept path s) (logCons good : Bool) (size : Nat) :
    Kept path (s.restart logCons path good size) := by
  have spec := maxSequence_spec (basename path) (open_ s.fs path good (dirname path)) 0
  refine ⟨fun _ => rfl, ?_, fun _ => spec.2, fun _ => spec.1, ?_, kept.fresh, kept.increasing⟩
  · rintro rfl
    exact basename_open s.fs path
  · intro r member
    exact ⟨mem_open (kept.used r member).1 good, (kept.used r member).2⟩

theorem mem_rename {fs : Fs} {oldPath newPath e : Text}
    (here : basename oldPath ∈ fs (dirname oldPath)) (same : dirname newPath = dirname oldPath) :
    e ∈ rename fs oldPath newPath (dirname oldPath) ↔
      e = basename newPath ∨ e ∈ fs (dirname oldPath) ∧ e ≠ basename oldPath := by
  rw [rename, if_pos here]
  simp only [same, if_true, List.mem_cons, List.mem_filter, decide_eq_true_eq]
  by_cases new : e = basename newPath <;> simp [new]

theorem rotations_rotate (s : State) (reopened : Bool) :
    s.rotations <+: (s.rotate reopened).rotations := by
  rw [State.rotate]
  split
  · exact List.prefix_append _ _
  · exact List.prefix_rfl

theorem toInt_eq {n : Int} (low : 0 ≤ n) (high : n ≤ INT_MAX) : toInt n = n :=
  Int.bmod_eq_of_le (by omega) (by simp only [INT_MAX] at high; omega)

theorem rotated_name (path : Text) {n : Nat} (small : n ≤ 2147483647) :
    dirname (path ++ [dot] ++ to_string n) = dirname path
      ∧ basename (path ++ [dot] ++ to_string n) = basename path ++ dot :: to_string n
      ∧ isRotationFile (basename path ++ dot :: to_string n) (basename path) = some (n : Int) := by
  have plain : slash ∉ dot :: to_string n := by
    intro member
    rcases List.mem_cons.mp member with other | digit
    · exact absurd other (by decide)
    · have low := (to_string_spec (n := n) (by omega)).2.1 slash digit
      exact absurd low (by decide)
  have whole : path ++ [dot] ++ to_string n = path ++ dot :: to_string n := by
    rw [List.append_assoc]
    rfl
  rw [whole]
  exact ⟨dirname_append plain path, basename_append plain path, isRotationFile_to_string _ small⟩

theorem kept_rotate (kept : Kept path s) (good : s.isGood = true) (reopened : Bool)
    (counts : Counts (s.rotate reopened)) : Kept path (s.rotate reopened) := by
  rw [State.rotate] at counts ⊢
  split at counts
  next full =>
    rw [if_pos full]
    have below : s.maxRotationLogSequence < INT_MAX :=
      counts _ (List.mem_append_right _ List.mem_cons_self)
    have counted := kept.counted good
    obtain ⟨n, number⟩ : ∃ n : Nat, s.maxRotationLogSequence + 1 = n :=
      ⟨(s.maxRotationLogSequence + 1).toNat, by omega⟩
    have small : n ≤ 2147483647 := by
      simp only [INT_MAX] at below
      omega
    have sequence : toInt (s.maxRotationLogSequence + 1) = n := by
      rw [toInt_eq (by omega) (by omega), number]
    have printed : ((n : Int) % 2 ^ 64).toNat = n := by omega
    obtain ⟨inDir, name, named⟩ := rotated_name path small
    have onPath := kept.onPath good
    have entries : ∀ e, e ∈ rename s.fs path (path ++ [dot] ++ to_string n) (dirname path) ↔
        e = basename path ++ dot :: to_string n ∨ e ∈ s.fs (dirname path) ∧ e ≠ basename path := by
      intro e
      rw [mem_rename (kept.here good) inDir, name]
    have fresh : basename path ++ dot :: to_string n ∉ s.fs (dirname path) := by
      intro member
      have bound := kept.bounded good _ member _ named
      omega
    simp only [sequence, printed, onPath, inDir, name]
    refine ⟨fun _ => rfl, ?_, ?_, ?_, ?_, ?_, ?_⟩
    · rintro rfl
      exact basename_open _ path
    · intro _ e member q rotated
      rcases mem_of_open member with rfl | member
      · rw [isRotationFile_self] at rotated
        cases rotated
      · rcases (entries e).mp member with rfl | ⟨old, _⟩
        · rw [named] at rotated
          cases rotated
          exact Int.le_refl _
        · have bound := kept.bounded good e old q rotated
          simp only
          omega
    · intro _
      exact Int.natCast_nonneg n
    · intro r member
      rcases List.mem_append.mp member with old | new
      · obtain ⟨there, rotated⟩ := kept.used r old
        refine ⟨mem_open ((entries _).mpr (.inr ⟨there, ?_⟩)) reopened, rotated⟩
        intro same
        rw [same, isRotationFile_self] at rotated
        cases rotated
      · obtain rfl := List.mem_singleton.mp new
        exact ⟨mem_open ((entries _).mpr (.inl rfl)) reopened, named⟩
    · intro r member
      rcases List.mem_append.mp member with old | new
      · exact kept.fresh r old
      · obtain rfl := List.mem_singleton.mp new
        exact fresh
    · rw [List.pairwise_append]
      refine ⟨kept.increasing, List.pairwise_singleton _ _, ?_⟩
      intro r old q new
      obtain rfl := List.mem_singleton.mp new
      have used := kept.used r old
      have bound := kept.bounded good _ used.1 _ used.2
      simp only
      omega
  next small =>
    rw [if_neg small]
    exact kept

theorem rotations_write (s : State) (line : Line) (o : Outside) :
    s.rotations <+: (s.write line o).rotations := by
  rw [State.write]
  split
  · exact rotations_rotate (State.append { s with lastLogTime := o.time } line) o.reopened
  · split <;> exact List.prefix_rfl

theorem kept_write (kept : Kept path s) (line : Line) (o : Outside)
    (counts : Counts (s.write line o)) : Kept path (s.write line o) := by
  rw [State.write] at counts ⊢
  split at counts
  next good =>
    rw [if_pos good]
    have appended : Kept path (State.append { s with lastLogTime := o.time } line) :=
      kept.congr rfl rfl rfl rfl rfl
    exact kept_rotate appended good o.reopened counts
  next bad =>
    rw [if_neg bad]
    split <;>
      exact kept.congr rfl rfl rfl rfl rfl

theorem Counts.of_prefix {t : State} (counts : Counts t) (grown : s.rotations <+: t.rotations) :
    Counts s :=
  fun r member => counts r (grown.subset member)

/-! A message sets no other field that is about the rotations. -/

theorem rotations_reported (s : State) (count : Nat) (m : Message) :
    s.rotations <+: (s.reported count m).rotations :=
  rotations_write { s with logRepeatCount := 0 } _ _

theorem rotations_stated (s : State) (m : Message) : s.rotations <+: (s.stated m).rotations :=
  rotations_write { s with prevLogMsg := m.msg } _ _

theorem kept_reported (kept : Kept path s) (count : Nat) (m : Message)
    (counts : Counts (s.reported count m)) : Kept path (s.reported count m) := by
  have start : Kept path { s with logRepeatCount := 0 } := kept.congr rfl rfl rfl rfl rfl
  exact kept_write start _ _ counts

theorem kept_stated (kept : Kept path s) (m : Message) (counts : Counts (s.stated m)) :
    Kept path (s.stated m) := by
  have start : Kept path { s with prevLogMsg := m.msg } := kept.congr rfl rfl rfl rfl rfl
  exact kept_write start _ _ counts

theorem kept_logged (kept : Kept path s) (m : Message) (counts : Counts (s.logged m)) :
    Kept path (s.logged m) := by
  rcases logged_cases s m with ⟨_, counted | reported⟩ | ⟨_, stated⟩ | both
  · rw [counted]
    exact kept.congr rfl rfl rfl rfl rfl
  · rw [reported] at counts ⊢
    exact kept_reported kept _ m counts
  · rw [stated] at counts ⊢
    exact kept_stated kept m counts
  · rw [both] at counts ⊢
    have first := kept_reported kept _ m (counts.of_prefix (rotations_stated _ m))
    exact kept_stated first m counts

theorem rotations_logged (s : State) (m : Message) : s.rotations <+: (s.logged m).rotations := by
  rcases logged_cases s m with ⟨_, counted | reported⟩ | ⟨_, stated⟩ | both
  · simp [counted]
  · rw [reported]
    exact rotations_reported s _ m
  · rw [stated]
    exact rotations_stated s m
  · rw [both]
    exact (rotations_reported s _ m).trans (rotations_stated _ m)

/-! Runs of messages and restarts on one path. -/

inductive Event where
  | message (m : Message)
  | restart (logCons good : Bool) (size : Nat)
  deriving DecidableEq, Repr

def step (path : Text) (s : State) : Event → State
  | .message m => s.logged m
  | .restart logCons good size => s.restart logCons path good size

theorem rotations_step (path : Text) (s : State) (e : Event) :
    s.rotations <+: (step path s e).rotations := by
  cases e with
  | message m => exact rotations_logged s m
  | restart logCons good size => exact List.prefix_rfl

theorem kept_step (kept : Kept path s) (e : Event) (counts : Counts (step path s e)) :
    Kept path (step path s e) := by
  cases e with
  | message m => exact kept_logged kept m counts
  | restart logCons good size => exact kept_restart kept logCons good size

theorem rotations_run (path : Text) (s : State) (es : List Event) :
    s.rotations <+: (es.foldl (step path) s).rotations := by
  induction es generalizing s with
  | nil => exact List.prefix_rfl
  | cons e es ih => exact (rotations_step path s e).trans (ih (step path s e))

theorem kept_run (kept : Kept path s) (es : List Event)
    (counts : Counts (es.foldl (step path) s)) : Kept path (es.foldl (step path) s) := by
  induction es generalizing s with
  | nil => exact kept
  | cons e es ih =>
    have now : Counts (step path s e) := counts.of_prefix (rotations_run path (step path s e) es)
    exact ih (kept_step kept e now) counts

theorem kept_initial (fs : Fs) (path : Text) : Kept path (State.initial fs) := by
  refine ⟨?_, ?_, ?_, ?_, ?_, ?_, .nil⟩
  · intro good
    cases good
  · intro good
    cases good
  · intro good
    cases good
  · intro good
    cases good
  · intro r member
    cases member
  · intro r member
    cases member

/-- As long as the counter can count on, each rotation takes a name that the directory does not
    have, and the numbers go up. -/
theorem rotation_fresh (fs : Fs) (path : Text) (es : List Event)
    (counts : Counts (es.foldl (step path) (State.initial fs))) :
    (∀ r ∈ (es.foldl (step path) (State.initial fs)).rotations, r.name ∉ r.entries)
      ∧ (es.foldl (step path) (State.initial fs)).rotations.Pairwise
        fun r q => r.sequence < q.sequence := by
  have kept := kept_run (kept_initial fs path) es counts
  exact ⟨kept.fresh, kept.increasing⟩

def logPath : Text := ascii "log"

/-- A log of the threshold's size and a bit, that is rotated with the next message. -/
def oneRotation : List Event :=
  [.restart true true 10241, .message ⟨[97], [], 1, ⟨1, true⟩, ⟨1, true⟩⟩]

theorem rotation_fresh_first :
    (∀ r ∈ (oneRotation.foldl (step logPath) (State.initial fun _ => [])).rotations,
      r.name ∉ r.entries)
      ∧ (oneRotation.foldl (step logPath) (State.initial fun _ => [])).rotations.Pairwise
        fun r q => r.sequence < q.sequence :=
  rotation_fresh (fun _ => []) logPath oneRotation (by unfold Counts; decide +kernel)

def lastNumbers : Fs := fun _ =>
  [logPath, ascii "log.2147483647", ascii "log.18446744071562067968"]

/-- The largest number of an `int` is followed by the smallest, printed without its sign. -/
theorem rotated_over :
    ∃ r ∈ (oneRotation.foldl (step logPath) (State.initial lastNumbers)).rotations,
      r.name ∈ r.entries ∧ r.sequence < r.last := by
  have only : (oneRotation.foldl (step logPath) (State.initial lastNumbers)).rotations =
      [⟨2147483647, -2147483648, ascii "log.18446744071562067968", lastNumbers [dot]⟩] := by
    decide +kernel
  rw [only]
  decide

end Logger
