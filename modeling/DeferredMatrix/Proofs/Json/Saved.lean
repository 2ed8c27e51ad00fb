import DeferredMatrix.Proofs.Json.Accepted
import DeferredMatrix.Proofs.Json.Numerals

/-!
# Saved configurations

A configuration whose threshold is finite is saved as a text that loads as the same configuration,
bit for bit. An infinite threshold is saved as `null`, which does not load.
-/

namespace DeferredMatrix

open Binary Decimal

namespace Json

/-! ## Texts as bytes -/

theorem toList_loop (bytes : ByteArray) (done : Bytes) (i : Nat) :
    ByteArray.toList.loop bytes i done = done.reverse ++ bytes.data.toList.drop i := by
  induction h : bytes.size - i generalizing i done with
  | zero =>
    have hnil : bytes.data.toList.drop i = [] := List.drop_eq_nil_of_le (Nat.le_of_sub_eq_zero h)
    rw [ByteArray.toList.loop, if_neg (by omega), hnil, List.append_nil]
  | succ n ih =>
    have hi : i < bytes.data.toList.length := show i < bytes.size by omega
    have hget : bytes.get! i = bytes.data.toList[i] := getElem!_pos bytes.data i hi
    rw [ByteArray.toList.loop, if_pos (show i < bytes.size from hi), ih _ _ (by omega),
      List.drop_eq_getElem_cons hi, hget, List.reverse_cons, List.append_assoc,
      List.singleton_append]

theorem bytesOf_ofList (cs : List Char) : bytesOf (String.ofList cs) = asBytes cs := by
  rw [bytesOf, ByteArray.toList, toList_loop]
  simp [asBytes, String.toUTF8, List.utf8Encode]

theorem bytesOf_append (s t : String) : bytesOf (s ++ t) = bytesOf s ++ bytesOf t := by
  rw [← String.ofList_toList (s := s), ← String.ofList_toList (s := t), ← String.ofList_append,
    bytesOf_ofList, bytesOf_ofList, bytesOf_ofList, asBytes_append]

/-! ## Floats -/

theorem startsNumber_of_readNumber {s : Bytes} {r : Number × Bytes} (h : readNumber s = .ok r) :
    startsWith startsNumber s = true := by
  cases s with
  | nil => cases h
  | cons b rest =>
    refine not_not.1 fun hstart => ?_
    have hb : startsNumber b = false := Bool.eq_false_iff.2 hstart
    simp only [startsNumber, Bool.or_eq_false_iff, beq_eq_false_iff_ne] at hb
    have hzero : b ≠ Byte.zero := by
      rintro rfl
      exact absurd hb.2 (by decide)
    unfold readNumber at h
    split at h
    · rename_i heq
      exact hb.1 (List.cons.inj heq).1
    · simp [readMagnitude, hzero, hb.2] at h

/-- A number has no blanks before it. -/
theorem skipBlank_of_startsNumber {s : Bytes} (h : startsWith startsNumber s = true) :
    skipBlank s = s := by
  cases s with
  | nil => rfl
  | cons b rest =>
    have hblank : Byte.isBlank b = false := by
      have hb : startsNumber b = true := h
      refine Bool.eq_false_iff.2 fun hblank => ?_
      simp only [Byte.isBlank, Bool.or_eq_true, beq_iff_eq] at hblank
      obtain ((rfl | rfl) | rfl) | rfl := hblank <;> exact absurd hb (by decide)
    rw [skipBlank, List.dropWhile_cons_of_neg (by rw [hblank]; exact Bool.false_ne_true)]

/-- What is read as a number without a sign is not taken for a negative one. -/
theorem readNumber_of_readMagnitude {s : Bytes} {r : Number × Bytes}
    (h : readMagnitude false s = .ok r) : readNumber s = .ok r := by
  unfold readNumber
  split
  · rename_i rest
    have herror : readMagnitude false (Byte.minus :: rest) = .error ⟨.invalidNumber, rest.length⟩ :=
      rfl
    cases herror.symm.trans h
  · exact h

section Finite

variable {code : Nat} (hfinite : code < Format.single.infinity) {rest : Bytes}
  (hrest : EndsNumber rest)

include hfinite hrest

/-- The text of a float without its sign is read as a double next to it. -/
theorem readMagnitude_decimal (isNegative : Bool) : ∃ c,
    readMagnitude isNegative (asBytes (singleLayout.writeDecimal
      (if code = 0 then ⟨0, 0⟩ else shortest .single .even code)) ++ rest) =
        .ok (.double isNegative c, rest) ∧
    Format.single.nearest (Format.double.quotient c).1 (Format.double.quotient c).2 = code := by
  rcases Nat.eq_zero_or_pos code with rfl | hpos
  · have hread : readMagnitude isNegative (asBytes (singleLayout.writeDecimal ⟨0, 0⟩) ++ rest) =
        readRest isNegative 0 (asBytes ('.' :: ['0']) ++ rest) := rfl
    have hfraction : readRest isNegative 0 (asBytes ('.' :: ['0']) ++ rest) =
        readExponent isNegative 0 (-1) rest :=
      readRest_fraction isNegative (areDigits_replicate 1) (List.cons_ne_nil _ _) hrest.of_point.1
        (by decide)
    have hparts : Double.ofParts 0 (-1) = some 0 := by decide +kernel
    refine ⟨0, ?_, by decide +kernel⟩
    rw [if_pos rfl, hread, hfraction, readExponent_of_endsNumber isNegative _ _ hrest, finish,
      hparts]
  · have hreads := readsAs_shortest hfinite hpos
    obtain ⟨c, hc, hcode⟩ := Option.map_eq_some_iff.1 hreads.reread_eq
    refine ⟨c, ?_, hcode⟩
    rw [if_neg hpos.ne', readMagnitude_writeDecimal isNegative hrest hreads.digits_pos
      hreads.digits_lt hreads.exponent_le, finish, hc]

/-- The text of a float is read as a number that rounds to it. -/
theorem readNumber_write (isNegative : Bool) : ∃ n,
    readNumber (bytesOf (singleLayout.write .single isNegative code) ++ rest) = .ok (n, rest) ∧
      n.toFloat32 = singleOfCode isNegative code := by
  obtain ⟨c, hread, hcode⟩ := readMagnitude_decimal hfinite hrest isNegative
  refine ⟨.double isNegative c, ?_, congrArg (singleOfCode isNegative) hcode⟩
  simp only [Layout.write, if_neg (not_lt.2 hfinite.le), if_neg hfinite.ne]
  rw [bytesOf_ofList]
  cases isNegative with
  | false => exact readNumber_of_readMagnitude hread
  | true =>
    rw [if_pos rfl, asBytes_cons (by decide)]
    exact hread

end Finite

theorem singleOfCode_toBits (x : Float32) : singleOfCode (singleSignBit ≤ x.toBits.toNat)
    (x.toBits.toNat % singleSignBit) = x := by
  have hlt : x.toBits.toNat < 2 ^ 32 := x.toBits.toNat_lt
  have hsign : singleSignBit = 2 ^ 31 := rfl
  have hbits : (if decide (singleSignBit ≤ x.toBits.toNat) = true then
      singleSignBit + x.toBits.toNat % singleSignBit
      else x.toBits.toNat % singleSignBit) = x.toBits.toNat := by
    simp only [decide_eq_true_eq, hsign]
    split <;> omega
  rw [singleOfCode, hbits, UInt32.ofNat_toNat, Float32.ofBits_toBits]

/-- A finite float is read back from its text. -/
theorem readFloat_float32 {x : Float32} (hx : x.isFinite = true) {rest : Bytes}
    (hrest : EndsNumber rest) :
    readFloat (bytesOf (singleLayout.float32 x) ++ rest) = .ok (x, rest) := by
  have hfinite : x.toBits.toNat % singleSignBit < Format.single.infinity :=
    (Single.isFinite_iff x).1 hx
  obtain ⟨n, hread, hn⟩ := readNumber_write hfinite hrest (singleSignBit ≤ x.toBits.toNat)
  have hstart := startsNumber_of_readNumber hread
  have htext : singleLayout.float32 x = singleLayout.write .single
    (singleSignBit ≤ x.toBits.toNat) (x.toBits.toNat % singleSignBit) := rfl
  rw [singleOfCode_toBits] at hn
  rw [htext, readFloat]
  simp only [skipBlank_of_startsNumber hstart, hstart, if_true]
  rw [hread]
  simp only [bind, Except.bind, hn, pure, Except.pure]

/-! ## Names -/

/-- Bytes that stand for themselves in a string. -/
def IsPlain (bytes : Bytes) : Prop :=
  ∀ b ∈ bytes, b ≠ Byte.quote ∧ b ≠ Byte.backslash ∧ Byte.isControl b = false

instance (bytes : Bytes) : Decidable (IsPlain bytes) :=
  inferInstanceAs (Decidable (∀ b ∈ bytes, _))

theorem readStringBytes_of_isPlain {bytes : Bytes} (h : IsPlain bytes) (done rest : Bytes) :
    readStringBytes done (bytes ++ Byte.quote :: rest) = .ok (done.reverse ++ bytes, rest) := by
  induction bytes generalizing done with
  | nil =>
    rw [List.nil_append, readStringBytes, if_pos rfl, List.append_nil]
  | cons b bytes ih =>
    obtain ⟨hquote, hbackslash, hcontrol⟩ := h b List.mem_cons_self
    have hnext := ih (fun b hb => h b (List.mem_cons_of_mem _ hb)) (b :: done)
    rw [List.reverse_cons, List.append_assoc, List.singleton_append] at hnext
    rw [List.cons_append, readStringBytes, if_neg hquote, if_neg hbackslash, hcontrol,
      if_neg Bool.false_ne_true, hnext]

end Json

namespace Config

open Json

/-- The name of the one field is read back. -/
theorem readString_fieldName (rest : Bytes) :
    readString (bytesOf fieldName ++ Byte.quote :: rest) = .ok (fieldName, rest) := by
  have hplain : IsPlain (bytesOf fieldName) := by decide +kernel
  have htext : String.fromUTF8? ⟨(bytesOf fieldName).toArray⟩ = some fieldName := by
    decide +kernel
  rw [readString, readStringBytes_of_isPlain hplain]
  simp only [List.reverse_nil, List.nil_append, htext]

/-- The text of a configuration whose threshold is written as `number`. -/
def savedText (number : String) : String :=
  "\x7b\n  \"" ++ fieldName ++ "\": " ++ number ++ "\n\x7d"

theorem toJson_eq_savedText (c : Config) :
    c.toJson = savedText (singleLayout.float32 c.singularEpsilon) := by
  have hindent : Document.indent 0 = "" ∧ Document.indent 1 = "  " := by decide +kernel
  simp only [toJson, Document.float, Document.pretty, Document.prettyAt, Document.prettyMembers,
    Document.block, List.isEmpty_cons, List.map_cons, List.map_nil, zero_add, hindent]
  apply String.toList_injective
  simp [savedText, Document.memberName]

theorem bytesOf_savedText (number : String) : bytesOf (savedText number) =
    Byte.openObject :: 0x0a :: 0x20 :: 0x20 :: Byte.quote :: (bytesOf fieldName ++
      Byte.quote :: Byte.colon :: 0x20 :: (bytesOf number ++ [0x0a, Byte.closeObject])) := by
  have hopening : bytesOf "\x7b\n  \"" = [Byte.openObject, 0x0a, 0x20, 0x20, Byte.quote] := by
    decide +kernel
  have hcolon : bytesOf "\": " = [Byte.quote, Byte.colon, 0x20] := by decide +kernel
  have hclosing : bytesOf "\n\x7d" = [0x0a, Byte.closeObject] := by decide +kernel
  rw [savedText]
  simp only [bytesOf_append, hopening, hcolon, hclosing, List.append_assoc, List.cons_append,
    List.nil_append]

theorem readMember_of_readFloat {t rest : Bytes} {x : Float32} (h : readFloat t = .ok (x, rest)) :
    schema.readMember [] (bytesOf fieldName ++ Byte.quote :: Byte.colon :: t) =
      .ok (some (fieldName, x), rest) := by
  have hfield : schema.fields.contains fieldName = true := by decide +kernel
  have hcolon : expectColon (Byte.colon :: t) = .ok t := rfl
  have hread : schema.field = readFloat := rfl
  rw [Schema.readMember, readString_fieldName]
  simp only [bind, Except.bind, hfield, if_true, List.lookup_nil, Option.isSome_none,
    Bool.false_eq_true, if_false, hcolon, hread, h, pure, Except.pure]

theorem collect_fieldName (x : Float32) : schema.collect [(fieldName, x)] = .ok [x] := by
  have hfields : schema.fields = [fieldName] := rfl
  have hlookup : [(fieldName, x)].lookup fieldName = some x := List.lookup_cons_self
  rw [Schema.collect, hfields, List.mapM_cons, List.mapM_nil, hlookup]
  rfl

/-- A number between the brackets of a saved text becomes the threshold. -/
theorem ofJson_savedText {number : String} {x : Float32}
    (h : readFloat (0x20 :: (bytesOf number ++ [0x0a, Byte.closeObject])) =
      .ok (x, [0x0a, Byte.closeObject])) :
    ofJson (savedText number) = .ok ⟨x⟩ := by
  have hfirst (s : Bytes) :
      nextName true (0x0a :: 0x20 :: 0x20 :: Byte.quote :: s) = .ok (some s) := rfl
  have hlast : nextName false [0x0a, Byte.closeObject] = .ok none := rfl
  have hclose : closeObject [0x0a, Byte.closeObject] = .ok [] := rfl
  have hbuild : schema.build [x] = some ⟨x⟩ := rfl
  have hbody : schema.readObjectBody (0x0a :: 0x20 :: 0x20 :: Byte.quote :: (bytesOf fieldName ++
      Byte.quote :: Byte.colon :: 0x20 :: (bytesOf number ++ [0x0a, Byte.closeObject]))) =
        .ok (⟨x⟩, []) := by
    -- There is one member, and bytes enough are left for a second one to be looked for.
    rw [Schema.readObjectBody, List.length_cons]
    simp only [Schema.readMembers, bind, Except.bind, hfirst, readMember_of_readFloat h, hlast,
      Option.toList_some, List.append_nil, pure, Except.pure, collect_fieldName, hbuild, hclose]
  have hrecord : readRecord schema (bytesOf (savedText number)) = .ok (⟨x⟩, []) := by
    rw [bytesOf_savedText]
    exact hbody
  simp only [ofJson, decode, readWhole, hrecord, bind, Except.bind]
  rfl

/-- What a reader says to `null` in the place of the threshold. -/
def nullRefused : Error := ⟨.invalidType .null "f32", 2, 26⟩

theorem ofJson_savedText_null : ofJson (savedText "null") = .error nullRefused := by
  have herror : (match ofJson (savedText "null") with
      | .ok _ => none
      | .error e => some e) = some nullRefused := by
    decide +kernel
  cases h : ofJson (savedText "null") with
  | ok c => simp [h] at herror
  | error e => simpa [h] using herror

/-- Values that are not finite are written as one word. -/
theorem float32_of_not_isFinite {x : Float32} (hx : ¬ x.isFinite = true) :
    singleLayout.float32 x = "null" := by
  have hinfinite : Format.single.infinity ≤ x.toBits.toNat % singleSignBit :=
    not_lt.1 fun hlt => hx ((Single.isFinite_iff x).2 hlt)
  simp only [Layout.float32, Layout.write]
  split
  · rfl
  · rename_i hle
    rw [if_pos (Nat.le_antisymm (not_lt.1 hle) hinfinite)]
    exact ite_self _

/-- A saved configuration is loaded as it was, unless its threshold is not finite. -/
theorem ofJson_toJson (c : Config) :
    ofJson c.toJson = if c.singularEpsilon.isFinite then .ok c else .error nullRefused := by
  rw [toJson_eq_savedText]
  split
  · rename_i hfinite
    exact ofJson_savedText (readFloat_float32 hfinite rfl)
  · rename_i hinfinite
    rw [float32_of_not_isFinite hinfinite, ofJson_savedText_null]

end Config

/-- Every configuration that is accepted is saved as a text that loads as the same configuration,
but for those with an infinite threshold, whose text does not load. -/
theorem accepted_configs_reload_unless_infinite {text : String} {config : Config}
    (h : Config.ofJson text = .ok config) :
    Config.ofJson config.toJson =
      if config.singularEpsilon.isInf then .error Config.nullRefused else .ok config := by
  have hfinite : config.singularEpsilon.isFinite = !config.singularEpsilon.isInf := by
    rw [Single.isFinite_eq, Config.isNaN_of_ofJson h, Bool.not_false, Bool.and_true]
  rw [Config.ofJson_toJson, hfinite]
  cases config.singularEpsilon.isInf <;> rfl

/-- One tenth is no 32-bit float; the one next to it is saved and loaded. -/
theorem tenth_reloads : ∃ config,
    Config.ofJson "\x7b\"singular_epsilon\":0.1\x7d" = .ok config ∧
      Config.ofJson config.toJson = .ok config := by
  have htext : (Config.ofJson "\x7b\"singular_epsilon\":0.1\x7d").toOption.map
      (·.singularEpsilon.isInf) = some false := by decide +kernel
  obtain ⟨config, hconfig, hinf⟩ := Option.map_eq_some_iff.1 htext
  have haccepted := toOption_eq_some_iff.1 hconfig
  refine ⟨config, haccepted, ?_⟩
  rw [accepted_configs_reload_unless_infinite haccepted, hinf, if_neg Bool.false_ne_true]

/-- A number beyond the largest float is accepted as infinity, which is saved as `null`. -/
theorem infinite_threshold_is_lost : ¬ ∀ text config, Config.ofJson text = .ok config →
    ∃ config', Config.ofJson config.toJson = .ok config' ∧
      config'.singularEpsilon.toBits = config.singularEpsilon.toBits := by
  intro hall
  have htext : (Config.ofJson "\x7b\"singular_epsilon\":1e39\x7d").toOption.map
      (·.singularEpsilon.isFinite) = some false := by decide +kernel
  obtain ⟨config, hconfig, hinfinite⟩ := Option.map_eq_some_iff.1 htext
  obtain ⟨config', hloaded, -⟩ := hall _ config (toOption_eq_some_iff.1 hconfig)
  rw [Config.ofJson_toJson, hinfinite, if_neg Bool.false_ne_true] at hloaded
  cases hloaded

end DeferredMatrix
