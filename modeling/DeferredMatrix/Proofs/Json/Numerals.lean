import DeferredMatrix.Proofs.Json.Rereading

/-!
# Written decimals are read part by part

The text of a decimal is read with the significand and the exponent that `readParts` says
(`readMagnitude_writeDecimal`), in each of its forms: with zeros behind the digits, with a point
among or before them, or with an exponent.
-/

namespace DeferredMatrix.Json

open Binary Decimal

/-! ## Characters as bytes -/

/-- The bytes of characters in a row. -/
def asBytes (cs : List Char) : Bytes := cs.flatMap String.utf8EncodeChar

theorem asBytes_nil : asBytes [] = [] := rfl

@[simp] theorem asBytes_append (cs ds : List Char) :
    asBytes (cs ++ ds) = asBytes cs ++ asBytes ds := List.flatMap_append

/-- The first 128 characters have one byte each. -/
theorem asBytes_cons {c : Char} (hc : c.toNat ≤ 127) (cs : List Char) :
    asBytes (c :: cs) = c.toUInt8 :: asBytes cs := by
  have hbyte : String.utf8EncodeChar c = [c.toUInt8] := if_pos hc
  rw [asBytes, List.flatMap_cons, hbyte]
  rfl

section Digit

variable {c : Char} (hc : c.isDigit = true)

include hc

theorem toNat_toUInt8_of_isDigit : 48 ≤ c.toUInt8.toNat ∧ c.toUInt8.toNat ≤ 57 ∧
    c.toUInt8.toNat = c.toNat := by
  have hrange : 48 ≤ c.toNat ∧ c.toNat ≤ 57 := by
    simpa [Char.isDigit, UInt32.le_iff_toNat_le] using hc
  have hbyte : c.toUInt8.toNat = c.toNat % 2 ^ 8 := UInt32.toNat_toUInt8 c.val
  omega

theorem isDigit_toUInt8 : Byte.isDigit c.toUInt8 = true := by
  obtain ⟨hlow, hhigh, -⟩ := toNat_toUInt8_of_isDigit hc
  simp only [Byte.isDigit, Bool.and_eq_true, decide_eq_true_eq, UInt8.le_iff_toNat_le]
  exact ⟨hlow, hhigh⟩

theorem toNat_le_of_isDigit : c.toNat ≤ 127 := by
  have hrange := toNat_toUInt8_of_isDigit hc
  omega

theorem digit_toUInt8 : Byte.digit c.toUInt8 = c.toNat - '0'.toNat := by
  rw [Byte.digit, (toNat_toUInt8_of_isDigit hc).2.2]
  rfl

end Digit

/-- Digits of a decimal number. -/
def AreDigits (ds : List Char) : Prop := ∀ c ∈ ds, c.isDigit = true

theorem areDigits_toDigits (n : Nat) : AreDigits (Nat.toDigits 10 n) :=
  fun _ hc => Nat.isDigit_of_mem_toDigits (by decide) (by decide) hc

theorem areDigits_replicate (n : Nat) : AreDigits (List.replicate n '0') := by
  intro c hc
  rw [List.eq_of_mem_replicate hc]
  decide

theorem AreDigits.tail {c : Char} {ds : List Char} (h : AreDigits (c :: ds)) : AreDigits ds :=
  fun d hd => h d (List.mem_cons_of_mem _ hd)

theorem AreDigits.append {ds ds' : List Char} (h : AreDigits ds) (h' : AreDigits ds') :
    AreDigits (ds ++ ds') := fun c hc => (List.mem_append.1 hc).elim (h c) (h' c)

/-! ## Runs of digits -/

/-- Further digits make a number greater. -/
theorem le_ofDigitChars (ds : List Char) (n : Nat) : n ≤ Nat.ofDigitChars 10 ds n := by
  rw [Nat.ofDigitChars_eq_ofDigitChars_zero]
  have hle : n ≤ 10 ^ ds.length * n := Nat.le_mul_of_pos_left n (Nat.pow_pos (by decide))
  omega

section Runs

variable {ds : List Char} {rest : Bytes} {v : Nat} (hds : AreDigits ds)
  (hrest : startsWith Byte.isDigit rest = false)

include hds hrest

theorem takeDigits_asBytes (hv : Nat.ofDigitChars 10 ds v ≤ maxWord) :
    takeDigits v (asBytes ds ++ rest) = (Nat.ofDigitChars 10 ds v, ds.length, rest) := by
  induction ds generalizing v with
  | nil =>
    cases rest with
    | nil => rfl
    | cons b rest =>
      have hb : Byte.isDigit b = false := by simpa [startsWith] using hrest
      rw [asBytes_nil, List.nil_append]
      simp [takeDigits, hb, Nat.ofDigitChars_nil]
  | cons c ds ih =>
    have hc := hds c List.mem_cons_self
    rw [Nat.ofDigitChars_cons, Nat.mul_comm 10 v] at hv
    have hfits : v * 10 + (c.toNat - '0'.toNat) ≤ maxWord := (le_ofDigitChars ds _).trans hv
    rw [asBytes_cons (toNat_le_of_isDigit hc), List.cons_append, takeDigits, isDigit_toUInt8 hc,
      digit_toUInt8 hc, decide_eq_true hfits]
    simp only [Bool.and_self, if_true]
    rw [ih (AreDigits.tail hds) hv, Nat.ofDigitChars_cons,
      Nat.mul_comm 10 v, List.length_cons]

theorem takeExponent_asBytes (hv : Nat.ofDigitChars 10 ds v ≤ maxExponent) :
    takeExponent v (asBytes ds ++ rest) = (some (Nat.ofDigitChars 10 ds v), rest) := by
  induction ds generalizing v with
  | nil =>
    cases rest with
    | nil => rfl
    | cons b rest =>
      have hb : Byte.isDigit b = false := by simpa [startsWith] using hrest
      rw [asBytes_nil, List.nil_append]
      simp [takeExponent, hb, Nat.ofDigitChars_nil]
  | cons c ds ih =>
    have hc := hds c List.mem_cons_self
    rw [Nat.ofDigitChars_cons, Nat.mul_comm 10 v] at hv
    have hfits : v * 10 + (c.toNat - '0'.toNat) ≤ maxExponent := (le_ofDigitChars ds _).trans hv
    rw [asBytes_cons (toNat_le_of_isDigit hc), List.cons_append, takeExponent,
      if_pos (isDigit_toUInt8 hc), digit_toUInt8 hc, if_pos hfits, ih (AreDigits.tail hds) hv,
      Nat.ofDigitChars_cons, Nat.mul_comm 10 v]

end Runs

/-! ## The parts of a number -/

/-- What ends a number: something that is neither a digit nor a point nor starts an exponent. -/
def EndsNumber (rest : Bytes) : Prop :=
  startsWith (fun b => Byte.isDigit b || b == Byte.point || Byte.isExponentMark b) rest = false

theorem EndsNumber.of_point {rest : Bytes} (h : EndsNumber rest) :
    startsWith Byte.isDigit rest = false ∧
      startsWith (fun b => b == Byte.point || Byte.isExponentMark b) rest = false := by
  cases rest with
  | nil => exact ⟨rfl, rfl⟩
  | cons b rest =>
    simp only [EndsNumber, startsWith, List.head?_cons, Option.any_some,
      Bool.or_eq_false_iff] at h ⊢
    exact ⟨h.1.1, h.1.2, h.2⟩

section Parts

variable (isNegative : Bool) {rest : Bytes}

theorem readExponent_of_endsNumber (v : Nat) (k : Int) (h : EndsNumber rest) :
    readExponent isNegative v k rest = finish isNegative v k rest := by
  cases rest with
  | nil => rfl
  | cons b rest =>
    have hb : Byte.isExponentMark b = false := by
      have hpair := h.of_point.2
      simp only [startsWith, List.head?_cons, Option.any_some, Bool.or_eq_false_iff] at hpair
      exact hpair.2
    simp [readExponent, hb]

/-- The digits of an exponent behind its sign. -/
theorem readExponent_digits (v : Nat) (k : Int) {sign : UInt8}
    (hsign : sign = Byte.minus ∨ sign = Byte.plus) {n : Nat} (hn : n ≤ maxExponent)
    (h : EndsNumber rest) :
    readExponent isNegative v k
        ('e'.toUInt8 :: sign :: (asBytes (Nat.toDigits 10 n) ++ rest)) =
      finish isNegative v (if sign = Byte.minus then k - n else k + n) rest := by
  obtain ⟨c, ds, hdigits⟩ : ∃ c ds, Nat.toDigits 10 n = c :: ds :=
    List.exists_cons_of_ne_nil Nat.toDigits_ne_nil
  have hare : AreDigits (c :: ds) := hdigits ▸ areDigits_toDigits _
  have hc := hare c List.mem_cons_self
  have hvalue : Nat.ofDigitChars 10 ds (c.toNat - '0'.toNat) = n := by
    rw [← Nat.ofDigitChars_ten_toDigits (n := n), hdigits, Nat.ofDigitChars_cons, Nat.mul_zero,
      Nat.zero_add]
  have htake : takeExponent (Byte.digit c.toUInt8) (asBytes ds ++ rest) = (some n, rest) := by
    rw [digit_toUInt8 hc, takeExponent_asBytes hare.tail
      h.of_point.1 (hvalue ▸ hn), hvalue]
  have hdigit := isDigit_toUInt8 hc
  have hmark : Byte.isExponentMark 'e'.toUInt8 = true := by decide
  have hplus : Byte.plus ≠ Byte.minus := by decide
  rw [hdigits, asBytes_cons (toNat_le_of_isDigit hc), List.cons_append, readExponent]
  rcases hsign with rfl | rfl
  · simp [hmark, startsWith, hdigit, htake]
  · simp [hmark, startsWith, hdigit, htake, hplus]

/-- A written exponent is added to the one so far. -/
theorem readExponent_exponentPart (v : Nat) (k : Int) {magnitude : Int}
    (hmagnitude : magnitude.natAbs ≤ maxExponent) (h : EndsNumber rest) :
    readExponent isNegative v k (asBytes (singleLayout.exponentPart magnitude) ++ rest) =
      finish isNegative v (k + magnitude) rest := by
  rcases Int.lt_or_le magnitude 0 with hneg | hnonneg
  · have hpart : singleLayout.exponentPart magnitude =
        'e' :: '-' :: Nat.toDigits 10 magnitude.natAbs := by
      rw [Layout.exponentPart, if_pos hneg]
      rfl
    have hsum : k - magnitude.natAbs = k + magnitude := by omega
    rw [hpart, asBytes_cons (by decide), asBytes_cons (by decide), ← hsum]
    exact readExponent_digits isNegative v k (Or.inl rfl) hmagnitude h
  · have hpart : singleLayout.exponentPart magnitude =
        'e' :: '+' :: Nat.toDigits 10 magnitude.natAbs := by
      rw [Layout.exponentPart, if_neg (not_lt.2 hnonneg)]
      rfl
    have hsum : k + magnitude.natAbs = k + magnitude := by omega
    rw [hpart, asBytes_cons (by decide), asBytes_cons (by decide), ← hsum]
    exact readExponent_digits isNegative v k (Or.inr rfl) hmagnitude h

theorem readTail_point (v : Nat) (k : Int) :
    readTail isNegative v k (Byte.point :: rest) = readFraction isNegative v k rest := rfl

theorem readTail_of_ne (v : Nat) (k : Int) {b : UInt8} (hb : b ≠ Byte.point) :
    readTail isNegative v k (b :: rest) = readExponent isNegative v k (b :: rest) := by
  unfold readTail
  split
  · rename_i h
    exact absurd (List.cons.inj h).1 hb
  · rfl

/-- Digits behind the point take the exponent down. -/
theorem readRest_fraction {ds : List Char} {v : Nat} (hds : AreDigits ds) (hne : ds ≠ [])
    (hrest : startsWith Byte.isDigit rest = false)
    (hv : Nat.ofDigitChars 10 ds v ≤ maxWord) :
    readRest isNegative v (asBytes ('.' :: ds) ++ rest) =
      readExponent isNegative (Nat.ofDigitChars 10 ds v) (-(ds.length : Int)) rest := by
  have hlength : ds.length ≠ 0 := fun h => hne (List.length_eq_zero_iff.1 h)
  have hpoint : asBytes ('.' :: ds) ++ rest = Byte.point :: (asBytes ds ++ rest) := rfl
  have hstart : startsWith (fun b => b == Byte.point || Byte.isExponentMark b)
      (Byte.point :: (asBytes ds ++ rest)) = true := rfl
  have hlength' : (0 : Int) - ds.length = -ds.length := zero_sub _
  rw [hpoint, readRest, if_pos hstart, readTail_point]
  simp only [readFraction, takeDigits_asBytes hds hrest hv, hrest, hlength, hlength',
    Bool.false_eq_true, if_false]

/-- Digits that do not start with zero are read up to what is no digit. -/
theorem readMagnitude_digits {c : Char} {ds : List Char} (hds : AreDigits (c :: ds))
    (hc : c ≠ '0') (hrest : startsWith Byte.isDigit rest = false)
    (hv : Nat.ofDigitChars 10 (c :: ds) 0 ≤ maxWord) :
    readMagnitude isNegative (asBytes (c :: ds) ++ rest) =
      readRest isNegative (Nat.ofDigitChars 10 (c :: ds) 0) rest := by
  have hcdigit := hds c List.mem_cons_self
  have hzero : c.toUInt8 ≠ Byte.zero := by
    intro h
    have hnat := congrArg UInt8.toNat h
    rw [(toNat_toUInt8_of_isDigit hcdigit).2.2] at hnat
    exact hc (Char.toNat_inj.1 hnat)
  rw [Nat.ofDigitChars_cons, Nat.mul_zero, Nat.zero_add] at hv ⊢
  have htake := takeDigits_asBytes hds.tail hrest hv
  rw [asBytes_cons (toNat_le_of_isDigit hcdigit), List.cons_append, readMagnitude, if_neg hzero,
    if_pos (isDigit_toUInt8 hcdigit), digit_toUInt8 hcdigit, htake]
  simp only [hrest, Bool.false_eq_true, if_false]

theorem readRest_exponentPart (v : Nat) {magnitude : Int}
    (hmagnitude : magnitude.natAbs ≤ maxExponent) (h : EndsNumber rest) :
    readRest isNegative v (asBytes (singleLayout.exponentPart magnitude) ++ rest) =
      finish isNegative v magnitude rest := by
  have hread := readExponent_exponentPart isNegative v 0 hmagnitude h
  rw [zero_add] at hread
  rw [← hread]
  have hmark : 'e'.toUInt8 ≠ Byte.point := by decide
  rw [Layout.exponentPart, asBytes_cons (by decide), List.cons_append]
  have hstart (t : Bytes) : startsWith (fun b => b == Byte.point || Byte.isExponentMark b)
      ('e'.toUInt8 :: t) = true := rfl
  rw [readRest, if_pos (hstart _), readTail_of_ne _ _ _ hmark]

/-- Digits on both sides of the point. -/
theorem readMagnitude_fraction {c : Char} {ds fs : List Char} (hds : AreDigits (c :: ds))
    (hc : c ≠ '0') (hfs : AreDigits fs) (hne : fs ≠ [])
    (hrest : startsWith Byte.isDigit rest = false)
    (hv : Nat.ofDigitChars 10 (c :: ds ++ fs) 0 ≤ maxWord) :
    readMagnitude isNegative (asBytes (c :: ds ++ '.' :: fs) ++ rest) =
      readExponent isNegative (Nat.ofDigitChars 10 (c :: ds ++ fs) 0) (-(fs.length : Int))
        rest := by
  rw [Nat.ofDigitChars_append] at hv ⊢
  rw [asBytes_append, List.append_assoc,
    readMagnitude_digits isNegative hds hc rfl ((le_ofDigitChars fs _).trans hv),
    readRest_fraction isNegative hfs hne hrest hv]

end Parts

/-! ## Written decimals -/

/-- The first digit of a number is not zero. -/
theorem exists_leading {n : Nat} (hn : 0 < n) :
    ∃ c ds, Nat.toDigits 10 n = c :: ds ∧ c ≠ '0' := by
  induction n using Nat.strongRecOn with
  | _ n ih =>
    rcases Nat.lt_or_ge n 10 with hlt | hge
    · exact ⟨_, _, Nat.toDigits_of_lt_base hlt, fun h => hn.ne' (Nat.digitChar_eq_zero.1 h)⟩
    · obtain ⟨c, ds, hds, hc⟩ := ih (n / 10) (by omega) (by omega)
      exact ⟨c, _, by rw [Nat.toDigits_of_base_le (by decide) hge, hds, List.cons_append], hc⟩

section Written

variable (isNegative : Bool) {rest : Bytes} (hrest : EndsNumber rest) {d : Decimal}
  (hpos : 0 < d.digits)

include hpos in
/-- The digits of a decimal: the first one is not zero, and there is one for each place from the
magnitude down to the exponent. -/
theorem exists_digits : ∃ c ds, Nat.toDigits 10 d.digits = c :: ds ∧ c ≠ '0' ∧
    AreDigits (c :: ds) ∧ Nat.ofDigitChars 10 (c :: ds) 0 = d.digits ∧
    (ds.length : Int) = d.magnitude - d.exponent := by
  obtain ⟨c, ds, hdigits, hc⟩ := exists_leading hpos
  have hcount : digitCount d.digits = ds.length + 1 := by
    rw [digitCount, if_neg hpos.ne', hdigits, List.length_cons]
  refine ⟨c, ds, hdigits, hc, hdigits ▸ areDigits_toDigits _, ?_, ?_⟩
  · rw [← hdigits, Nat.ofDigitChars_ten_toDigits]
  · rw [Decimal.magnitude, hcount]
    omega

include hrest hpos

/-- Zeros behind the point and then the digits. -/
theorem readMagnitude_small (hfits : d.digits ≤ maxWord) (hsmall : d.magnitude < 0) :
    readMagnitude isNegative
        (asBytes (singleLayout.positional (Nat.toDigits 10 d.digits) d.magnitude) ++ rest) =
      finish isNegative d.digits d.exponent rest := by
  set zs := List.replicate (-d.magnitude - 1).toNat '0' ++ Nat.toDigits 10 d.digits with hzs
  have hvalue : Nat.ofDigitChars 10 zs 0 = d.digits := by
    rw [hzs, Nat.ofDigitChars_append, Nat.ofDigitChars_replicate_zero, Nat.mul_zero,
      Nat.ofDigitChars_ten_toDigits]
  have hlength : -(zs.length : Int) = d.exponent := by
    obtain ⟨c, ds, hdigits, -, -, -, hcount⟩ := exists_digits hpos
    rw [hzs, List.length_append, List.length_replicate, hdigits, List.length_cons]
    omega
  have hare : AreDigits zs := (areDigits_replicate _).append (areDigits_toDigits _)
  have hne : zs ≠ [] := List.append_ne_nil_of_right_ne_nil _ Nat.toDigits_ne_nil
  have htext : asBytes (singleLayout.positional (Nat.toDigits 10 d.digits) d.magnitude) ++ rest =
      Byte.zero :: (asBytes ('.' :: zs) ++ rest) := by
    rw [Layout.positional, if_pos hsmall]
    rfl
  have hpoint : startsWith Byte.isDigit (asBytes ('.' :: zs) ++ rest) = false := rfl
  rw [htext, readMagnitude, if_pos rfl, hpoint, if_neg Bool.false_ne_true,
    readRest_fraction isNegative hare hne hrest.of_point.1 (hvalue ▸ hfits), hvalue, hlength,
    readExponent_of_endsNumber isNegative _ _ hrest]

/-- The digits, zeros up to the point, and one behind it. -/
theorem readMagnitude_whole (hexponent : 0 ≤ d.exponent)
    (hfits : d.digits * 10 ^ (d.exponent.toNat + 1) ≤ maxWord) :
    readMagnitude isNegative
        (asBytes (singleLayout.positional (Nat.toDigits 10 d.digits) d.magnitude) ++ rest) =
      finish isNegative (d.digits * 10 ^ (d.exponent.toNat + 1)) (-1) rest := by
  obtain ⟨c, ds, hdigits, hc, hare, hdvalue, hcount⟩ := exists_digits hpos
  rw [hdigits]
  have hzeros : d.magnitude.toNat + 1 - (c :: ds).length = d.exponent.toNat := by
    rw [List.length_cons]
    omega
  set zs := ds ++ List.replicate d.exponent.toNat '0' with hzs
  have htext : singleLayout.positional (c :: ds) d.magnitude = c :: zs ++ '.' :: ['0'] := by
    have hlength : (c :: ds).length ≤ d.magnitude.toNat + 1 := by
      rw [List.length_cons]
      omega
    have hnonneg : ¬ d.magnitude < 0 := by omega
    simp only [Layout.positional, if_neg hnonneg, if_pos hlength, hzeros]
    rfl
  have hvalue : Nat.ofDigitChars 10 (c :: zs ++ ['0']) 0 =
      d.digits * 10 ^ (d.exponent.toNat + 1) := by
    rw [hzs, ← List.cons_append, List.append_assoc, ← List.replicate_succ', Nat.ofDigitChars_append,
      Nat.ofDigitChars_replicate_zero, hdvalue, Nat.mul_comm]
  have hzdigits : AreDigits (c :: zs) := hare.append (areDigits_replicate _)
  have hlast : AreDigits ['0'] := areDigits_replicate 1
  rw [htext, readMagnitude_fraction isNegative hzdigits hc hlast (List.cons_ne_nil _ _)
    hrest.of_point.1 (hvalue ▸ hfits), hvalue, readExponent_of_endsNumber isNegative _ _ hrest]
  rfl

/-- Digits before the point and behind it. -/
theorem readMagnitude_mixed (hfits : d.digits ≤ maxWord) (hlarge : 0 ≤ d.magnitude)
    (hexponent : d.exponent < 0) :
    readMagnitude isNegative
        (asBytes (singleLayout.positional (Nat.toDigits 10 d.digits) d.magnitude) ++ rest) =
      finish isNegative d.digits d.exponent rest := by
  obtain ⟨c, ds, hdigits, hc, hare, hdvalue, hcount⟩ := exists_digits hpos
  rw [hdigits]
  set w := d.magnitude.toNat with hw
  have hsplit : c :: ds.take w ++ ds.drop w = c :: ds := by
    rw [List.cons_append, List.take_append_drop]
  have htext : singleLayout.positional (c :: ds) d.magnitude =
      c :: ds.take w ++ '.' :: ds.drop w := by
    have hlength : ¬ (c :: ds).length ≤ w + 1 := by
      rw [List.length_cons]
      omega
    simp only [Layout.positional, if_neg (not_lt.2 hlarge), ← hw, if_neg hlength]
    rfl
  have hfraction : -((ds.drop w).length : Int) = d.exponent := by
    rw [List.length_drop]
    omega
  have hne : ds.drop w ≠ [] := by
    intro hnil
    rw [hnil] at hfraction
    simp at hfraction
    omega
  have htake : AreDigits (c :: ds.take w) := fun x hx =>
    hare x (hsplit ▸ List.mem_append_left _ hx)
  have hdrop : AreDigits (ds.drop w) := fun x hx =>
    hare x (hsplit ▸ List.mem_append_right _ hx)
  rw [htext, readMagnitude_fraction isNegative htake hc hdrop hne hrest.of_point.1
    (by rw [hsplit, hdvalue]; exact hfits), hsplit, hdvalue, hfraction,
    readExponent_of_endsNumber isNegative _ _ hrest]

/-- One digit, a fraction if there are more, and an exponent. -/
theorem readMagnitude_scientific (hfits : d.digits ≤ maxWord)
    (hmagnitude : d.magnitude.natAbs ≤ maxExponent) :
    readMagnitude isNegative
        (asBytes (singleLayout.scientific (Nat.toDigits 10 d.digits) d.magnitude) ++ rest) =
      finish isNegative d.digits d.exponent rest := by
  obtain ⟨c, ds, hdigits, hc, hare, hdvalue, hcount⟩ := exists_digits hpos
  rw [hdigits]
  have hmark (t : Bytes) : startsWith Byte.isDigit
      (asBytes (singleLayout.exponentPart d.magnitude) ++ t) = false := rfl
  cases ds with
  | nil =>
    have htext : singleLayout.scientific [c] d.magnitude =
        [c] ++ singleLayout.exponentPart d.magnitude := rfl
    have hexponent : d.magnitude = d.exponent := by
      simp at hcount
      omega
    rw [htext, asBytes_append, List.append_assoc, readMagnitude_digits isNegative hare hc (hmark _)
      (hdvalue ▸ hfits), hdvalue, readRest_exponentPart isNegative _ hmagnitude hrest, hexponent]
  | cons x fs =>
    have htext : singleLayout.scientific (c :: x :: fs) d.magnitude =
        ([c] ++ '.' :: x :: fs) ++ singleLayout.exponentPart d.magnitude := rfl
    have hexponent : -((x :: fs).length : Int) + d.magnitude = d.exponent := by omega
    have hlead : AreDigits [c] := List.forall_mem_singleton.2 (hare c List.mem_cons_self)
    rw [htext, asBytes_append, List.append_assoc, readMagnitude_fraction isNegative hlead hc
      hare.tail (List.cons_ne_nil _ _) (hmark _)
      (by rw [List.singleton_append, hdvalue]; exact hfits), List.singleton_append, hdvalue,
      readExponent_exponentPart isNegative _ _ hmagnitude hrest, hexponent]

end Written

theorem isPositional_iff (magnitude : Int) :
    singleLayout.isPositional magnitude = true ↔ -6 ≤ magnitude ∧ magnitude ≤ 12 := by
  simp [Layout.isPositional, singleLayout, layout]

/-- Written decimals are read with their digits and their exponent. -/
theorem readMagnitude_writeDecimal (isNegative : Bool) {rest : Bytes} (hrest : EndsNumber rest)
    {d : Decimal} (hpos : 0 < d.digits) (hlt : d.digits < 2 ^ 53)
    (hexponent : d.exponent.natAbs ≤ 60) :
    readMagnitude isNegative (asBytes (singleLayout.writeDecimal d) ++ rest) =
      finish isNegative (readParts d).1 (readParts d).2 rest := by
  have hword : 2 ^ 53 ≤ maxWord := by decide
  have hparts := (readParts_spec hpos hlt).2.2.1
  have hfits := hlt.le.trans hword
  rw [Layout.writeDecimal]
  simp only [if_neg hpos.ne']
  split
  · rename_i hpositional
    obtain ⟨-, hhigh⟩ := (isPositional_iff _).1 hpositional
    -- The point is before the digits, among them, or behind zeros that follow them.
    rcases Int.lt_or_le d.exponent 0 with hneg | hnonneg
    · rw [readParts, if_neg fun h => not_lt.2 h.1 hneg]
      rcases Int.lt_or_le d.magnitude 0 with hsmall | hlarge
      · exact readMagnitude_small isNegative hrest hpos hfits hsmall
      · exact readMagnitude_mixed isNegative hrest hpos hfits hlarge hneg
    · rw [readParts, if_pos ⟨hnonneg, hhigh⟩] at hparts ⊢
      exact readMagnitude_whole isNegative hrest hpos hnonneg (hparts.le.trans hword)
  · rename_i hscientific
    -- Few digits and a moderate exponent: the written one is not too large to be evaluated.
    have hcount : digitCount d.digits ≤ 16 := by
      obtain ⟨p, hp, hlow, -⟩ := exists_digitCount hpos.ne'
      have hpow : 10 ^ p < 10 ^ 16 := hlow.trans_lt (hlt.trans (by decide))
      have hlt := (Nat.pow_lt_pow_iff_right (by decide)).1 hpow
      omega
    have hmagnitude : d.magnitude.natAbs ≤ maxExponent := by
      have hmax : maxExponent = 2147483647 := rfl
      rw [hmax, Decimal.magnitude]
      omega
    have hparts' : readParts d = (d.digits, d.exponent) := by
      rw [readParts, if_neg]
      rintro ⟨hnonneg, hhigh⟩
      have hlow : -6 ≤ d.magnitude := by
        rw [Decimal.magnitude]
        omega
      exact hscientific ((isPositional_iff _).2 ⟨hlow, hhigh⟩)
    rw [hparts']
    exact readMagnitude_scientific isNegative hrest hpos hfits hmagnitude

end DeferredMatrix.Json
