import DeferredMatrix.Json.Lexeme

/-!
# Reading strings

A string is read from behind its opening quote. Escapes stand for one character each, or two
for one character beyond the basic plane.
-/

namespace DeferredMatrix.Json

/-- The character that a one-letter escape stands for. -/
def simpleEscape? (b : UInt8) : Option UInt8 :=
  if b = Byte.quote || b = Byte.backslash || b = Byte.slash then some b
  else if b = Byte.letterB then some 0x08
  else if b = Byte.letterF then some 0x0c
  else if b = Byte.letterN then some 0x0a
  else if b = Byte.letterR then some 0x0d
  else if b = Byte.letterT then some 0x09
  else none

/-- The number with four hexadecimal digits. -/
def hex4? (a b c d : UInt8) : Option Nat := do
  let a ← Byte.hexDigit? a
  let b ← Byte.hexDigit? b
  let c ← Byte.hexDigit? c
  let d ← Byte.hexDigit? d
  return ((a * 16 + b) * 16 + c) * 16 + d

/-- Four bytes that should be hexadecimal digits. -/
def readHex : Bytes → Except Mistake (Nat × Bytes)
  | a :: b :: c :: d :: rest =>
    match hex4? a b c d with
    | some n => .ok (n, rest)
    | none => .error ⟨.invalidEscape, rest.length⟩
  | _ => .error ⟨.endOfString, 0⟩

def isLeadingSurrogate (n : Nat) : Bool := 0xd800 ≤ n && n ≤ 0xdbff

def isTrailingSurrogate (n : Nat) : Bool := 0xdc00 ≤ n && n ≤ 0xdfff

/-- The bytes of the character with the given code point. -/
def encodeCodePoint (n : Nat) : Bytes := String.utf8EncodeChar (Char.ofNat n)

/-- The next byte has to be `wanted`. -/
def expectInEscape (wanted : UInt8) : Bytes → Except Mistake Bytes
  | [] => .error ⟨.endOfString, 0⟩
  | b :: rest => if b = wanted then .ok rest else .error ⟨.unexpectedEndOfEscape, rest.length⟩

/-- A character given by code units: one, or a pair of surrogates. -/
def readCodeUnits (s : Bytes) : Except Mistake (Bytes × Bytes) :=
  match readHex s with
  | .error m => .error m
  | .ok (n, rest) =>
    if isTrailingSurrogate n then .error ⟨.loneSurrogate, rest.length⟩
    else if isLeadingSurrogate n then
      match expectInEscape Byte.backslash rest with
      | .error m => .error m
      | .ok rest =>
        match expectInEscape Byte.letterU rest with
        | .error m => .error m
        | .ok rest =>
          match readHex rest with
          | .error m => .error m
          | .ok (n', rest) =>
            if isTrailingSurrogate n' then
              .ok (encodeCodePoint (0x10000 + (n - 0xd800) * 0x400 + (n' - 0xdc00)), rest)
            else .error ⟨.loneSurrogate, rest.length⟩
    else .ok (encodeCodePoint n, rest)

/-- What follows a backslash. -/
def readEscape : Bytes → Except Mistake (Bytes × Bytes)
  | [] => .error ⟨.endOfString, 0⟩
  | b :: rest =>
    match simpleEscape? b with
    | some c => .ok ([c], rest)
    | none =>
      if b = Byte.letterU then readCodeUnits rest else .error ⟨.invalidEscape, rest.length⟩

/-! ## An escape consumes at least one byte -/

theorem length_of_readHex {s rest : Bytes} {n : Nat} (h : readHex s = .ok (n, rest)) :
    rest.length < s.length := by
  unfold readHex at h
  split at h
  · split at h
    · cases h
      simp only [List.length_cons]
      omega
    · cases h
  · cases h

theorem length_of_expectInEscape {b : UInt8} {s rest : Bytes}
    (h : expectInEscape b s = .ok rest) : rest.length < s.length := by
  unfold expectInEscape at h
  split at h
  · cases h
  · split at h
    · cases h
      simp only [List.length_cons]
      omega
    · cases h

theorem length_of_readCodeUnits {s rest : Bytes} {c : Bytes}
    (h : readCodeUnits s = .ok (c, rest)) : rest.length < s.length := by
  unfold readCodeUnits at h
  split at h
  · cases h
  · rename_i n r hr
    have h1 := length_of_readHex hr
    split at h
    · cases h
    · split at h
      · split at h
        · cases h
        · rename_i r2 hr2
          have h2 := length_of_expectInEscape hr2
          split at h
          · cases h
          · rename_i r3 hr3
            have h3 := length_of_expectInEscape hr3
            split at h
            · cases h
            · rename_i n' r4 hr4
              have h4 := length_of_readHex hr4
              split at h
              · simp only [Except.ok.injEq, Prod.mk.injEq] at h
                rw [← h.2]
                omega
              · cases h
      · simp only [Except.ok.injEq, Prod.mk.injEq] at h
        rw [← h.2]
        exact h1

theorem length_of_readEscape {s rest : Bytes} {c : Bytes}
    (h : readEscape s = .ok (c, rest)) : rest.length < s.length := by
  unfold readEscape at h
  split at h
  · cases h
  · split at h
    · cases h
      simp only [List.length_cons]
      omega
    · split at h
      · have := length_of_readCodeUnits h
        simp only [List.length_cons]
        omega
      · cases h

/-! ## The whole string -/

/-- The bytes of a string up to its closing quote, appended in reverse to `done`. -/
def readStringBytes (done : Bytes) (s : Bytes) : Except Mistake (Bytes × Bytes) :=
  match s with
  | [] => .error ⟨.endOfString, 0⟩
  | b :: rest =>
    if b = Byte.quote then .ok (done.reverse, rest)
    else if b = Byte.backslash then
      match h : readEscape rest with
      | .error m => .error m
      | .ok (c, rest') =>
        have : rest'.length < rest.length := length_of_readEscape h
        readStringBytes (c.reverse ++ done) rest'
    else if Byte.isControl b then .error ⟨.controlCharacter, rest.length⟩
    else readStringBytes (b :: done) rest
termination_by s.length
decreasing_by all_goals simp only [List.length_cons]; omega

/-- A string from behind its opening quote. -/
def readString (s : Bytes) : Except Mistake (String × Bytes) :=
  match readStringBytes [] s with
  | .error m => .error m
  | .ok (bytes, rest) =>
    match String.fromUTF8? ⟨bytes.toArray⟩ with
    | some text => .ok (text, rest)
    | none => .error ⟨.invalidUnicode, rest.length⟩

end DeferredMatrix.Json
