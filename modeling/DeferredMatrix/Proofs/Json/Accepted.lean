import DeferredMatrix.Config
import DeferredMatrix.Proofs.Binary.Single
import DeferredMatrix.Proofs.Program.Execution

/-!
# What readers accept

A property of everything that a reading function returns (`Read.Ensures`) carries over to lists
and records of what it reads.

* `readFloat_ensures` : no text is read as something that is no number.
* `readRecord_ensures` : what holds of all fields read, and of the value of a field left out,
  holds of the fields that a record is built from.
* `Config.isNaN_of_ofJson` : the threshold of a configuration that is accepted is a number.
-/

namespace DeferredMatrix

namespace Json

variable {β γ : Type} {P : γ → Prop} {Q : β → Prop}

/-- Everything that is read has the property. -/
def Read.Ensures (read : Read β) (Q : β → Prop) : Prop :=
  ∀ s value rest, read s = .ok (value, rest) → Q value

/-! ## Numbers -/

theorem nearest_le_infinity (f : Binary.Format) (num den : Nat) :
    f.nearest num den ≤ f.infinity := by
  unfold Binary.Format.nearest
  split
  · exact Nat.zero_le _
  · exact Nat.min_le_right _ _

theorem isNaN_singleOfCode (isNegative : Bool) {code : Nat}
    (h : code ≤ Binary.Format.single.infinity) : (singleOfCode isNegative code).isNaN = false := by
  apply Single.isNaN_ofBits_of_le
  have hinfinity : Binary.Format.single.infinity = 0x7f800000 := rfl
  cases isNegative with
  | false =>
    simp
    omega
  | true =>
    simp [Binary.singleSignBit]
    omega

theorem isNaN_toFloat32 (n : Number) : n.toFloat32.isNaN = false := by
  cases n with
  | natural n => exact isNaN_singleOfCode _ (nearest_le_infinity _ _ _)
  | negative n => exact isNaN_singleOfCode _ (nearest_le_infinity _ _ _)
  | double isNegative code => exact isNaN_singleOfCode _ (nearest_le_infinity _ _ _)

theorem readFloat_ensures : readFloat.Ensures fun x => x.isNaN = false := by
  intro s x rest h
  simp only [readFloat] at h
  split at h
  · obtain ⟨⟨n, rest'⟩, -, heq⟩ := ok_of_bind h
    cases heq
    exact isNaN_toFloat32 n
  · cases h

/-! ## Lists -/

theorem readElements_ensures {element : Read γ} (helement : element.Ensures P) (count : Nat)
    (isFirst : Bool) : (readElements element count isFirst).Ensures fun xs => ∀ x ∈ xs, P x := by
  induction count generalizing isFirst with
  | zero =>
    intro s xs rest h
    cases h
    exact List.forall_mem_nil _
  | succ count ih =>
    intro s xs rest h
    obtain ⟨place?, -, hplace⟩ := ok_of_bind h
    cases place? with
    | none =>
      cases hplace
      exact List.forall_mem_nil _
    | some place =>
      obtain ⟨⟨x, rest'⟩, hx, hrest⟩ := ok_of_bind hplace
      obtain ⟨⟨ys, rest''⟩, hys, heq⟩ := ok_of_bind hrest
      cases heq
      exact List.forall_mem_cons.2 ⟨helement _ _ _ hx, ih false _ _ _ hys⟩

theorem readListBody_ensures {element : Read γ} (helement : element.Ensures P) (count : Nat)
    (wanted : String) {fill : Option γ} (hfill : ∀ x ∈ fill, P x) {build : List γ → Option β}
    (hbuild : ∀ xs, (∀ x ∈ xs, P x) → ∀ value ∈ build xs, Q value) :
    (readListBody element count wanted fill build).Ensures Q := by
  intro s value rest h
  obtain ⟨⟨xs, rest'⟩, hxs, hrest⟩ := ok_of_bind h
  have hread : ∀ x ∈ xs, P x := readElements_ensures helement _ _ _ _ _ hxs
  have hall : ∀ x ∈ xs ++ fill.elim [] (List.replicate (count - xs.length)), P x := by
    intro x hx
    rcases List.mem_append.1 hx with hx | hx
    · exact hread x hx
    · cases fill with
      | none => cases hx
      | some y =>
        rw [List.eq_of_mem_replicate hx]
        exact hfill y rfl
  simp only at hrest
  split at hrest
  · cases hrest
  · rename_i value' hbuilt
    obtain ⟨rest'', -, heq⟩ := ok_of_bind hrest
    cases heq
    exact hbuild _ hall _ hbuilt

/-! ## Records -/

theorem mapM_ensures {δ ε : Type} {f : δ → Except ε γ} (hf : ∀ d x, f d = .ok x → P x)
    {ds : List δ} {xs : List γ} (h : ds.mapM f = .ok xs) : ∀ x ∈ xs, P x := by
  induction ds generalizing xs with
  | nil =>
    cases h
    exact List.forall_mem_nil _
  | cons d ds ih =>
    rw [List.mapM_cons] at h
    obtain ⟨x, hx, hrest⟩ := ok_of_bind h
    obtain ⟨ys, hys, heq⟩ := ok_of_bind hrest
    cases heq
    exact List.forall_mem_cons.2 ⟨hf d x hx, ih hys⟩

section Record

variable {r : Schema γ β} (hfield : r.field.Ensures P)

include hfield

theorem Schema.readMember_ensures (known : List (String × γ)) :
    (r.readMember known).Ensures fun member => ∀ x ∈ member, P x.2 := by
  intro s member rest h
  obtain ⟨⟨name, rest'⟩, -, hname⟩ := ok_of_bind h
  simp only at hname
  split at hname
  · split at hname
    · cases hname
    · obtain ⟨place, -, hfieldRead⟩ := ok_of_bind hname
      obtain ⟨⟨x, rest''⟩, hx, heq⟩ := ok_of_bind hfieldRead
      cases heq
      rintro _ ⟨⟩
      exact hfield _ _ _ hx
  · split at hname
    · cases hname
    · obtain ⟨place, -, hskip⟩ := ok_of_bind hname
      obtain ⟨rest'', -, heq⟩ := ok_of_bind hskip
      cases heq
      rintro _ ⟨⟩

theorem Schema.readMembers_ensures (limit : Nat) (isFirst : Bool) {known : List (String × γ)}
    (hknown : ∀ x ∈ known, P x.2) :
    (r.readMembers limit isFirst known).Ensures fun known' => ∀ x ∈ known', P x.2 := by
  induction limit generalizing isFirst known with
  | zero =>
    intro s known' rest h
    cases h
    exact hknown
  | succ limit ih =>
    intro s known' rest h
    obtain ⟨place?, -, hplace⟩ := ok_of_bind h
    cases place? with
    | none =>
      cases hplace
      exact hknown
    | some place =>
      obtain ⟨⟨member, rest'⟩, hmember, hrest⟩ := ok_of_bind hplace
      refine ih false (fun x hx => ?_) _ _ _ hrest
      rcases List.mem_append.1 hx with hx | hx
      · exact readMember_ensures hfield known _ _ _ hmember x (Option.mem_toList.1 hx)
      · exact hknown x hx

variable (hfallback : ∀ x ∈ r.fallback, P x)
  (hbuild : ∀ xs, (∀ x ∈ xs, P x) → ∀ value ∈ r.build xs, Q value)

include hfallback hbuild

theorem Schema.readObjectBody_ensures : r.readObjectBody.Ensures Q := by
  intro s value rest h
  obtain ⟨⟨known, rest'⟩, hknown, hrest⟩ := ok_of_bind h
  have hmembers : ∀ x ∈ known, P x.2 :=
    readMembers_ensures hfield _ _ (List.forall_mem_nil _) _ _ _ hknown
  simp only at hrest
  split at hrest
  · cases hrest
  · rename_i xs hxs
    have hall : ∀ x ∈ xs, P x := by
      refine mapM_ensures (fun name x hx => ?_) hxs
      split at hx
      · rename_i y hy
        cases hx
        rcases Option.or_eq_some_iff.1 hy with hlookup | ⟨-, hleft⟩
        · obtain ⟨before, behind, rfl, -⟩ := List.lookup_eq_some_iff.1 hlookup
          exact hmembers _ (List.mem_append_right _ List.mem_cons_self)
        · exact hfallback _ hleft
      · cases hx
    split at hrest
    · cases hrest
    · rename_i value' hbuilt
      obtain ⟨rest'', -, heq⟩ := ok_of_bind hrest
      cases heq
      exact hbuild _ hall _ hbuilt

theorem readRecord_ensures : (readRecord r).Ensures Q := by
  intro s value rest h
  simp only [readRecord] at h
  split at h
  · exact readListBody_ensures hfield _ _ hfallback hbuild _ _ _ h
  · exact Schema.readObjectBody_ensures hfield hfallback hbuild _ _ _ h
  · cases h

end Record

theorem ensures_of_decode {read : Read β} (hread : read.Ensures Q) {text : Bytes} {value : β}
    (h : decode read text = .ok value) : Q value := by
  have hwhole : readWhole read text = .ok value := by
    cases hw : readWhole read text with
    | error m => simp [decode, hw, Except.mapError] at h
    | ok value' => simpa [decode, hw, Except.mapError] using h
  obtain ⟨⟨value', rest⟩, hvalue, hrest⟩ := ok_of_bind hwhole
  simp only at hrest
  split at hrest
  · cases hrest
    exact hread _ _ _ hvalue
  · cases hrest

end Json

/-- A threshold that is accepted is a number, be it written or left out. -/
theorem Config.isNaN_of_ofJson {text : String} {c : Config} (h : ofJson text = .ok c) :
    c.singularEpsilon.isNaN = false := by
  refine Json.ensures_of_decode (Q := fun c => c.singularEpsilon.isNaN = false)
    (Json.readRecord_ensures Json.readFloat_ensures ?_ ?_) h
  · rintro _ ⟨⟩
    decide +kernel
  · rintro xs hxs value hvalue
    match xs, hvalue with
    | [epsilon], rfl => exact hxs epsilon (List.mem_singleton_self _)

end DeferredMatrix
