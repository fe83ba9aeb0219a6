import UpanLibs.Net.Inet
import Mathlib.Tactic.Ring

/-!
What `inet_aton` accepts, against the grammar of dotted addresses, and the round trip
through `inet_ntoa`.
-/
namespace Inet

def Digit (ch : UInt8) : Prop := 48 ≤ ch.toNat ∧ ch.toNat ≤ 57

instance : DecidablePred Digit := fun _ => inferInstanceAs (Decidable (_ ∧ _))

def value (f : List UInt8) : Nat := f.foldl (fun n ch => n * 10 + (ch.toNat - 48)) 0

/-- At most three digits that stand for an octet; there may be none. -/
structure Field (f : List UInt8) : Prop where
  digits : ∀ ch ∈ f, Digit ch
  short : f.length ≤ 3
  octet : value f ≤ 255

structure Quad (ip : List UInt8) (fields : List (List UInt8)) : Prop where
  four : fields.length = 4
  each : ∀ f ∈ fields, Field f
  text : ip = [dot].intercalate fields

def Dotted (ip : List UInt8) (fields : List (List UInt8)) : Prop :=
  Quad ip fields ∧ [] ∉ fields

theorem isdigit_iff {ch : UInt8} : isdigit ch = true ↔ Digit ch := by
  have bound := ch.toNat_lt
  simp only [isdigit, Digit, UInt8.toNat_sub, UInt8.toNat_ofNat, decide_eq_true_eq]
  omega

theorem digit_ne_dot {ch : UInt8} (digit : Digit ch) : ch ≠ dot := by
  rintro rfl
  exact absurd digit (by decide)

theorem digitOf_digit {ch : UInt8} (digit : Digit ch) :
    digitOf ch = ch.toNat - 48 ∧ digitOf ch < 10 := by
  have bound := ch.toNat_lt
  obtain ⟨low, high⟩ := digit
  have same : digitOf ch = (ch - 48).toNat := if_pos (isdigit_iff.mpr ⟨low, high⟩)
  rw [same, UInt8.toNat_sub]
  simp only [UInt8.toNat_ofNat]
  omega

theorem isspace_digit {ch : UInt8} (digit : Digit ch) : isspace ch = false := by
  have bound := ch.toNat_lt
  obtain ⟨low, high⟩ := digit
  have blank : ch ≠ 32 := by
    rintro rfl
    exact absurd low (by decide)
  simp only [isspace, decide_eq_false_iff_not, not_or, blank, not_false_eq_true, true_and,
    UInt8.toNat_sub, UInt8.toNat_ofNat]
  omega

theorem foldl_digits_ge (f : List UInt8) (number : Nat) :
    number ≤ f.foldl (fun n ch => n * 10 + (ch.toNat - 48)) number := by
  induction f generalizing number with
  | nil => exact Nat.le_refl number
  | cons ch f ih =>
    have later := ih (number * 10 + (ch.toNat - 48))
    rw [List.foldl_cons]
    omega

theorem foldl_digits_lt {f : List UInt8} (digits : ∀ ch ∈ f, Digit ch) (number : Nat) :
    f.foldl (fun n ch => n * 10 + (ch.toNat - 48)) number < (number + 1) * 10 ^ f.length := by
  induction f generalizing number with
  | nil => simp
  | cons ch f ih =>
    have digit := (digits ch (by simp)).2
    have rest := ih (fun c mem => digits c (by simp [mem])) (number * 10 + (ch.toNat - 48))
    rw [List.foldl_cons]
    refine Nat.lt_of_lt_of_le rest ?_
    rw [List.length_cons, pow_succ, Nat.mul_comm (10 ^ f.length), ← Nat.mul_assoc]
    exact Nat.mul_le_mul_right _ (by omega)

theorem strtolDigits_fits {f : List UInt8} (digits : ∀ ch ∈ f, Digit ch) {number : Nat}
    (fits : f.foldl (fun n ch => n * 10 + (ch.toNat - 48)) number ≤ ULONG_MAX) :
    strtolDigits number f = f.foldl (fun n ch => n * 10 + (ch.toNat - 48)) number := by
  induction f generalizing number with
  | nil => rfl
  | cons ch f ih =>
    obtain ⟨same, below⟩ := digitOf_digit (digits ch (by simp))
    rw [List.foldl_cons] at fits ⊢
    have grown := Nat.le_trans (foldl_digits_ge f _) fits
    rw [← same] at grown fits ⊢
    simp only [ULONG_MAX] at grown
    rw [strtolDigits, if_neg (by omega), if_neg (by simp only [ULONG_MAX]; omega),
      ih (fun c mem => digits c (by simp [mem])) fits]

theorem strtolDigits_eq {f : List UInt8} (digits : ∀ ch ∈ f, Digit ch) {number : Nat}
    (small : (number + 1) * 10 ^ f.length ≤ 10 ^ 18) :
    strtolDigits number f = f.foldl (fun n ch => n * 10 + (ch.toNat - 48)) number := by
  have bound := foldl_digits_lt digits number
  exact strtolDigits_fits digits (by simp only [ULONG_MAX]; omega)

theorem value_lt {f : List UInt8} (digits : ∀ ch ∈ f, Digit ch) : value f < 10 ^ f.length := by
  have bound := foldl_digits_lt digits 0
  rw [Nat.zero_add, Nat.one_mul] at bound
  exact bound

theorem strtol_digits {f : List UInt8} (digits : ∀ ch ∈ f, Digit ch) :
    strtol f = (min (strtolDigits 0 f) LONG_MAX : Nat) := by
  cases f with
  | nil => rfl
  | cons ch f =>
    have digit := digits ch (by simp)
    have kept : (ch :: f).dropWhile isspace = ch :: f := by
      simp [List.dropWhile, isspace_digit digit]
    unfold strtol
    rw [kept]
    split
    · exact absurd digit (by rename_i same; cases same; decide)
    · exact absurd digit (by rename_i same; cases same; decide)
    · rfl

theorem atoi_eq {f : List UInt8} (digits : ∀ ch ∈ f, Digit ch) (short : f.length ≤ 3) :
    atoi f = value f := by
  have power : 10 ^ f.length ≤ 10 ^ 3 := Nat.pow_le_pow_right (by decide) short
  have bound := value_lt digits
  have loop : strtolDigits 0 f = value f := strtolDigits_eq digits (by omega)
  unfold atoi
  rw [strtol_digits digits, loop]
  simp only [LONG_MAX]
  omega

theorem Field.atoi {f : List UInt8} (field : Field f) : atoi f = value f :=
  atoi_eq field.digits field.short

def octetOf (f : List UInt8) : UInt8 := UInt8.ofNat (value f)

theorem Field.octetOf {f : List UInt8} (field : Field f) : (octetOf f).toNat = value f := by
  have octet := field.octet
  simp only [Inet.octetOf, UInt8.toNat_ofNat']
  omega

theorem inetLoop_digits {f : List UInt8} (digits : ∀ ch ∈ f, Digit ch) (p res : List UInt8)
    {c : List UInt8} (short : c.length + f.length ≤ 3) :
    inetLoop (f ++ p) c res = inetLoop p (c ++ f) res := by
  induction f generalizing c with
  | nil => simp
  | cons ch f ih =>
    have digit := digits ch (by simp)
    rw [List.length_cons] at short
    rw [List.cons_append, inetLoop, if_neg (digit_ne_dot digit), if_neg (by omega),
      if_neg (by simp [isdigit_iff.mpr digit]),
      ih (fun c mem => digits c (by simp [mem])) (by simp; omega)]
    simp

theorem inetLoop_field {f : List UInt8} (field : Field f) (p : List UInt8) {res : List UInt8}
    (room : res.length < 3) :
    inetLoop (f ++ dot :: p) [] res = inetLoop p [] (res ++ [octetOf f]) := by
  have octet := field.octet
  rw [inetLoop_digits field.digits _ _ (by simpa using field.short), List.nil_append, inetLoop,
    if_pos rfl, if_neg (by omega)]
  simp only [field.atoi]
  rw [if_neg (by omega)]
  rfl

theorem quad_cases {ip : List UInt8} {fields : List (List UInt8)} (quad : Quad ip fields) :
    ∃ f₁ f₂ f₃ f₄, fields = [f₁, f₂, f₃, f₄] ∧
      ip = f₁ ++ dot :: (f₂ ++ dot :: (f₃ ++ dot :: f₄)) := by
  obtain ⟨four, each, text⟩ := quad
  match fields, four with
  | [f₁, f₂, f₃, f₄], _ => exact ⟨f₁, f₂, f₃, f₄, rfl, by simpa [List.intercalate] using text⟩

theorem inetLoop_quad {f₁ f₂ f₃ f₄ : List UInt8} (each : ∀ f ∈ [f₁, f₂, f₃, f₄], Field f) :
    inetLoop (f₁ ++ dot :: (f₂ ++ dot :: (f₃ ++ dot :: f₄))) [] [] =
      some (f₄, [octetOf f₁, octetOf f₂, octetOf f₃]) := by
  have last := each f₄ (by simp)
  rw [inetLoop_field (each f₁ (by simp)) _ (by simp),
    inetLoop_field (each f₂ (by simp)) _ (by simp),
    inetLoop_field (each f₃ (by simp)) _ (by simp),
    ← List.append_nil f₄, inetLoop_digits last.digits [] _ (by simpa using last.short)]
  simp [inetLoop]

theorem inetLoop_reads {p c res c' res' : List UInt8} (digits : ∀ ch ∈ c, Digit ch)
    (short : c.length ≤ 3) (done : inetLoop p c res = some (c', res')) :
    ∃ fields, (∀ f ∈ fields, Field f) ∧ (∀ ch ∈ c', Digit ch) ∧ c'.length ≤ 3 ∧
      c ++ p = [dot].intercalate (fields ++ [c']) ∧ res' = res ++ fields.map octetOf := by
  induction p generalizing c res with
  | nil =>
    cases done
    exact ⟨[], by simp, digits, short, by simp [List.intercalate], by simp⟩
  | cons ch p ih =>
    rw [inetLoop] at done
    split at done
    next isDot =>
      split at done
      · cases done
      · simp only at done
        split at done
        · cases done
        next fits =>
          rw [atoi_eq digits short] at fits done
          obtain ⟨fields, each, digits', short', text, octets⟩ := ih (by simp) (by simp) done
          refine ⟨c :: fields, ?_, digits', short', ?_, ?_⟩
          · intro f mem
            rcases List.mem_cons.mp mem with rfl | mem
            · exact ⟨digits, short, by omega⟩
            · exact each f mem
          · rw [List.nil_append] at text
            rw [text, isDot]
            cases fields <;> simp [List.intercalate]
          · rw [octets, List.map_cons, List.append_assoc]
            rfl
    next =>
      split at done
      · cases done
      next room =>
        split at done
        · cases done
        next digit =>
          have isDigit : Digit ch := isdigit_iff.mp (by simpa using digit)
          have digits' : ∀ d ∈ c ++ [ch], Digit d := by
            intro d mem
            rcases List.mem_append.mp mem with mem | mem
            · exact digits d mem
            · exact List.mem_singleton.mp mem ▸ isDigit
          obtain ⟨fields, each, last, short', text, octets⟩ :=
            ih digits' (by simp; omega) done
          exact ⟨fields, each, last, short', by simpa using text, octets⟩

theorem octets_ofOctets (b₀ b₁ b₂ b₃ : UInt8) :
    (InAddr.ofOctets [b₀, b₁, b₂, b₃]).octets = [b₀, b₁, b₂, b₃] := by
  have h₀ := b₀.toNat_lt
  have h₁ := b₁.toNat_lt
  have h₂ := b₂.toNat_lt
  have h₃ := b₃.toNat_lt
  simp only [InAddr.octets, InAddr.ofOctets, List.foldr_cons, List.foldr_nil,
    UInt32.toNat_ofNat', List.cons.injEq, and_true, ← UInt8.toNat_inj, UInt8.toNat_ofNat']
  omega

theorem ofOctets_octets (a : InAddr) : InAddr.ofOctets a.octets = a := by
  obtain ⟨s_addr⟩ := a
  have bound := s_addr.toNat_lt
  simp only [InAddr.octets, InAddr.ofOctets, List.foldr_cons, List.foldr_nil,
    InAddr.mk.injEq, ← UInt32.toNat_inj, UInt32.toNat_ofNat', UInt8.toNat_ofNat']
  omega

theorem quad_length {ip : List UInt8} {fields : List (List UInt8)} (quad : Quad ip fields) :
    ip.length < INET_ADDRSTRLEN := by
  obtain ⟨f₁, f₂, f₃, f₄, rfl, rfl⟩ := quad_cases quad
  have h₁ := (quad.each f₁ (by simp)).short
  have h₂ := (quad.each f₂ (by simp)).short
  have h₃ := (quad.each f₃ (by simp)).short
  have h₄ := (quad.each f₄ (by simp)).short
  simp only [List.length_append, List.length_cons, INET_ADDRSTRLEN]
  omega

theorem inet_aton_quad {ip : List UInt8} {fields : List (List UInt8)} (quad : Quad ip fields)
    (old : InAddr) : ∃ a, inet_aton (some ip) (some old) = (1, some a) ∧
      a.octets = fields.map octetOf := by
  have short := quad_length quad
  obtain ⟨f₁, f₂, f₃, f₄, rfl, rfl⟩ := quad_cases quad
  have last := quad.each f₄ (by simp)
  have octet := last.octet
  refine ⟨.ofOctets [octetOf f₁, octetOf f₂, octetOf f₃, octetOf f₄], ?_, octets_ofOctets ..⟩
  rw [inet_aton, if_neg (by omega), inetLoop_quad quad.each]
  simp only [last.atoi]
  rw [if_neg (by simp), if_neg (by omega)]
  rfl

theorem inet_aton_reads (ip : List UInt8) (old : InAddr) :
    inet_aton (some ip) (some old) = (0, some old) ∨ ∃ fields, Quad ip fields := by
  rw [inet_aton]
  split
  · exact .inl rfl
  · split
    · exact .inl rfl
    next c res done =>
      simp only
      split
      · exact .inl rfl
      next dots =>
        split
        · exact .inl rfl
        next fits =>
          obtain ⟨fields, each, digits, short, text, octets⟩ := inetLoop_reads (by simp) (by simp) done
          rw [atoi_eq digits short] at fits
          have three : fields.length = 3 := by simpa [octets] using dots
          refine .inr ⟨fields ++ [c], by simp [three], ?_, by simpa using text⟩
          intro f mem
          rcases List.mem_append.mp mem with mem | mem
          · exact each f mem
          · exact List.mem_singleton.mp mem ▸ ⟨digits, short, by omega⟩

theorem quad_unique {ip : List UInt8} {fs gs : List (List UInt8)} (first : Quad ip fs)
    (second : Quad ip gs) : fs = gs := by
  have dotless : ∀ {fields}, Quad ip fields → ip.splitOn dot = fields := by
    intro fields quad
    rw [quad.text]
    refine List.splitOn_intercalate dot ?_ ?_
    · intro f mem here
      exact digit_ne_dot ((quad.each f mem).digits dot here) rfl
    · rintro rfl
      exact absurd quad.four (by decide)
  rw [← dotless first, dotless second]

/-- `inet_aton` does with a text what the grammar says of it. -/
def Right (ip : List UInt8) : Prop :=
  ∀ old, (∀ fields, Dotted ip fields → ∃ a, inet_aton (some ip) (some old) = (1, some a) ∧
      a.octets.map UInt8.toNat = fields.map value) ∧
    ((¬ ∃ fields, Dotted ip fields) → inet_aton (some ip) (some old) = (0, some old))

/-- Four fields of which at least one has no digit. -/
def Blank (ip : List UInt8) : Prop := ∃ fields, Quad ip fields ∧ [] ∈ fields

theorem right_iff (ip : List UInt8) : Right ip ↔ ¬ Blank ip := by
  constructor
  · rintro right ⟨fields, quad, blank⟩
    obtain ⟨a, accepted, -⟩ := inet_aton_quad quad ⟨0⟩
    have rejected := (right ⟨0⟩).2 (by
      rintro ⟨others, quad', filled⟩
      exact filled (quad_unique quad quad' ▸ blank))
    rw [accepted] at rejected
    exact absurd (congrArg Prod.fst rejected) (by simp)
  · intro full old
    constructor
    · rintro fields ⟨quad, -⟩
      obtain ⟨a, accepted, octets⟩ := inet_aton_quad quad old
      refine ⟨a, accepted, ?_⟩
      rw [octets, List.map_map]
      exact List.map_congr_left fun f mem => (quad.each f mem).octetOf
    · intro none
      rcases inet_aton_reads ip old with rejected | ⟨fields, quad⟩
      · exact rejected
      · by_cases blank : [] ∈ fields
        · exact absurd ⟨fields, quad, blank⟩ full
        · exact absurd ⟨fields, quad, blank⟩ none

theorem uintmaxtostr_succ (fuel uval : Nat) (buf : List UInt8) :
    uintmaxtostr (fuel + 1) uval buf =
      if uval / 10 = 0 then UInt8.ofNat (uval % 10 + 48) :: buf
      else uintmaxtostr fuel (uval / 10) (UInt8.ofNat (uval % 10 + 48) :: buf) := rfl

theorem decimal_below {n : Nat} (below : n < 1000) :
    decimal n =
      if n < 10 then [UInt8.ofNat (n + 48)]
      else if n < 100 then [UInt8.ofNat (n / 10 + 48), UInt8.ofNat (n % 10 + 48)]
      else [UInt8.ofNat (n / 100 + 48), UInt8.ofNat (n / 10 % 10 + 48),
        UInt8.ofNat (n % 10 + 48)] := by
  unfold decimal
  split
  next one =>
    rw [uintmaxtostr_succ, if_pos (by omega), Nat.mod_eq_of_lt one]
  next =>
    rw [uintmaxtostr_succ, if_neg (by omega)]
    split
    next two =>
      rw [uintmaxtostr_succ, if_pos (by omega), Nat.mod_eq_of_lt (by omega : n / 10 < 10)]
    next =>
      have hundreds : n / 10 / 10 % 10 = n / 100 := by omega
      rw [uintmaxtostr_succ, if_neg (by omega), uintmaxtostr_succ, if_pos (by omega), hundreds]

theorem digit_ofNat {d : Nat} (below : d < 10) :
    Digit (UInt8.ofNat (d + 48)) ∧ (UInt8.ofNat (d + 48)).toNat - 48 = d := by
  simp only [Digit, UInt8.toNat_ofNat']
  omega

theorem decimal_value {n : Nat} (octet : n < 256) :
    Field (decimal n) ∧ decimal n ≠ [] ∧ value (decimal n) = n := by
  have units := digit_ofNat (by omega : n % 10 < 10)
  have tens := digit_ofNat (by omega : n / 10 % 10 < 10)
  have read : value (decimal n) = n := by
    rw [decimal_below (by omega)]
    split
    next one => simp only [value, List.foldl_cons, List.foldl_nil, (digit_ofNat one).2]; omega
    next =>
      split
      next two =>
        have high := digit_ofNat (by omega : n / 10 < 10)
        simp only [value, List.foldl_cons, List.foldl_nil, high.2, units.2]
        omega
      next =>
        have high := digit_ofNat (by omega : n / 100 < 10)
        simp only [value, List.foldl_cons, List.foldl_nil, high.2, tens.2, units.2]
        omega
  refine ⟨⟨?_, ?_, by omega⟩, ?_, read⟩
  · intro ch mem
    rw [decimal_below (by omega)] at mem
    split at mem
    next one => exact List.mem_singleton.mp mem ▸ (digit_ofNat one).1
    next =>
      split at mem
      next two =>
        simp only [List.mem_cons, List.not_mem_nil, or_false] at mem
        rcases mem with rfl | rfl
        · exact (digit_ofNat (by omega)).1
        · exact units.1
      next =>
        simp only [List.mem_cons, List.not_mem_nil, or_false] at mem
        rcases mem with rfl | rfl | rfl
        · exact (digit_ofNat (by omega)).1
        · exact tens.1
        · exact units.1
  · rw [decimal_below (by omega)]
    split
    · simp
    · split <;> simp
  · rw [decimal_below (by omega)]
    split
    · simp
    · split <;> simp

theorem inet_ntoa_dotted (a : InAddr) : ∃ text, inet_ntoa a = some text ∧
    Dotted text (a.octets.map fun octet => decimal octet.toNat) := by
  have dotted : Dotted ([dot].intercalate (a.octets.map fun octet => decimal octet.toNat))
      (a.octets.map fun octet => decimal octet.toNat) := by
    refine ⟨⟨rfl, ?_, rfl⟩, ?_⟩
    · intro f mem
      obtain ⟨octet, -, rfl⟩ := List.mem_map.mp mem
      exact (decimal_value octet.toNat_lt).1
    · intro mem
      obtain ⟨octet, -, blank⟩ := List.mem_map.mp mem
      exact (decimal_value octet.toNat_lt).2.1 blank
  have short := quad_length dotted.1
  exact ⟨_, if_neg (by omega), dotted⟩

theorem inet_aton_inet_ntoa (a old : InAddr) : ∃ text, inet_ntoa a = some text ∧
    inet_aton (some text) (some old) = (1, some a) := by
  obtain ⟨text, written, quad, -⟩ := inet_ntoa_dotted a
  obtain ⟨b, accepted, octets⟩ := inet_aton_quad quad old
  have same : b.octets = a.octets := by
    rw [octets, List.map_map]
    have octet : ∀ o : UInt8, octetOf (decimal o.toNat) = o := by
      intro o
      rw [octetOf, (decimal_value o.toNat_lt).2.2, UInt8.ofNat_toNat]
    exact (List.map_congr_left fun o _ => octet o).trans (List.map_id _)
  refine ⟨text, written, ?_⟩
  rw [accepted, ← ofOctets_octets b, same, ofOctets_octets]

/-- The grammar is right for a text unless it has an empty field; and every address is
    read back from its text. -/
theorem inet_grammar (ip : List UInt8) :
    (Right ip ↔ ¬ Blank ip) ∧ ∀ a old, ∃ text, inet_ntoa a = some text ∧
      inet_aton (some text) (some old) = (1, some a) :=
  ⟨right_iff ip, inet_aton_inet_ntoa⟩

/-- Three dots and nothing else are read as the address 0.0.0.0. -/
theorem inet_aton_dots :
    inet_aton (some [dot, dot, dot]) (some ⟨7⟩) = (1, some ⟨0⟩) ∧ ¬ Right [dot, dot, dot] := by
  refine ⟨by decide, fun right => ?_⟩
  have rejected := (right ⟨7⟩).2 (by
    rintro ⟨fields, quad, filled⟩
    have blank : Quad [dot, dot, dot] [[], [], [], []] := by
      refine ⟨rfl, fun f mem => ?_, by decide⟩
      obtain rfl : f = [] := by simpa using mem
      exact ⟨by simp, by simp, by decide⟩
    exact filled (quad_unique blank quad ▸ by simp))
  exact absurd (congrArg Prod.fst rejected) (by decide)

end Inet
