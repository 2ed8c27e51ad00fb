import DeferredMatrix.Program.Instruction

/-!
# Reading listings

The words of a text are what stands between blanks, commas and brackets. A listed instruction has
one word for its opcode and one for each operand, so the operands can be read back from the text.

* `Text.words_intercalate` : words that were put together come apart again.
* `Instruction.words_listing` : the words of a listed instruction.
* `Instruction.references_listing` : those among them that refer to slots are the inputs in their
  order.
-/

namespace DeferredMatrix

/-! ## Words -/

namespace Text

def isSeparator (c : Char) : Bool := c == ' ' || c == ',' || c == '(' || c == ')'

theorem isSeparator_of_isDigit {c : Char} (h : c.isDigit = true) : isSeparator c = false := by
  cases hc : isSeparator c with
  | false => rfl
  | true =>
    simp only [isSeparator, Bool.or_eq_true, beq_iff_eq] at hc
    obtain ((rfl | rfl) | rfl) | rfl := hc <;> cases h

/-- What stands between separators. -/
def words (text : String) : List String :=
  ((text.toList.splitOnP isSeparator).filter fun w => !w.isEmpty).map String.ofList

/-- A text that is a single word. -/
def IsWord (text : String) : Prop := text ≠ "" ∧ ∀ c ∈ text.toList, isSeparator c = false

instance (text : String) : Decidable (IsWord text) :=
  decidable_of_iff (text ≠ "" ∧ (text.toList.all fun c => !isSeparator c) = true) (by simp [IsWord])

variable {s t : String}

@[simp] theorem words_empty : words "" = [] := by simp [words]

theorem words_of_isWord (h : IsWord s) : words s = [s] := by
  have hne : s.toList ≠ [] := fun hs => h.1 (String.toList_eq_nil_iff.1 hs)
  rw [words, List.splitOnP_eq_singleton h.2]
  simp [hne]

/-- No word reaches across a separator. -/
theorem words_append_separator {c : Char} (hc : isSeparator c = true) (s t : String) :
    words (s ++ String.singleton c ++ t) = words s ++ words t := by
  simp only [words, String.toList_append, String.toList_singleton, List.append_assoc,
    List.singleton_append]
  rw [List.splitOnP_append_cons _ _ hc, List.filter_append, List.map_append]

theorem words_append_comma (s t : String) : words (s ++ ", " ++ t) = words s ++ words t := by
  have hsplit : s ++ ", " ++ t =
      s ++ String.singleton ',' ++ ("" ++ String.singleton ' ' ++ t) := by
    rw [show ", " = String.singleton ',' ++ String.singleton ' ' from by decide]
    simp only [String.append_assoc, String.empty_append]
  rw [hsplit, words_append_separator (by decide), words_append_separator (by decide), words_empty,
    List.nil_append]

theorem words_intercalate {ts : List String} (h : ∀ t ∈ ts, IsWord t) :
    words (", ".intercalate ts) = ts := by
  induction ts with
  | nil => simp
  | cons t ts ih =>
    have ht := words_of_isWord (h t List.mem_cons_self)
    cases ts with
    | nil => rw [String.intercalate_singleton, ht]
    | cons u us =>
      have hrest := ih fun v hv => h v (List.mem_cons_of_mem _ hv)
      rw [String.intercalate_cons_cons, words_append_comma, ht, hrest, List.singleton_append]

/-- A word that refers to a slot: by its number, or as one from elsewhere. -/
def isReference (word : String) : Bool := word.toList.head? == some '$' || word == "external"

end Text

/-! ## Operands as words -/

variable {α : Type} {k : Kind}

/-- A slot in a listing. -/
def Place.listing (owner : Option BufferId) (place : Place) : String :=
  if some place.buffer = owner then "$" ++ toString place.slot else "external"

namespace Operand

theorem listing_of_input {o : Operand α k} {place : Place} (h : o.input? = some place)
    (owner : Option BufferId) : o.listing owner = place.listing owner := by
  cases o with
  | literal v => cases h
  | handle g =>
    cases h
    rfl

theorem listing_of_no_input {o : Operand α k} (h : o.input? = none) (owner : Option BufferId) :
    o.listing owner = "literal" := by
  cases o with
  | literal v => rfl
  | handle g => cases h

end Operand

namespace Place

variable (owner : Option BufferId) (place : Place)

theorem toList_slot : ("$" ++ toString place.slot).toList = '$' :: Nat.toDigits 10 place.slot := by
  rw [String.toList_append, ← Nat.toList_repr]
  rfl

theorem isWord_listing : Text.IsWord (place.listing owner) := by
  unfold listing
  split
  · refine ⟨fun h => ?_, fun c hc => ?_⟩
    · have hnil := congrArg String.toList h
      rw [toList_slot] at hnil
      cases hnil
    · rw [toList_slot] at hc
      rcases List.mem_cons.1 hc with rfl | hdigit
      · rfl
      · exact Text.isSeparator_of_isDigit
          (Nat.isDigit_of_mem_toDigits (by decide) (by decide) hdigit)
  · decide

theorem isReference_listing : Text.isReference (place.listing owner) = true := by
  unfold listing
  split
  · rw [Text.isReference, toList_slot]
    rfl
  · decide

end Place

theorem Operand.isWord_listing (o : Operand α k) (owner : Option BufferId) :
    Text.IsWord (o.listing owner) := by
  cases h : o.input? with
  | none =>
    rw [Operand.listing_of_no_input h]
    decide
  | some place =>
    rw [Operand.listing_of_input h]
    exact place.isWord_listing owner

/-! ## Listed instructions -/

theorem Opcode.isWord_word (c : Opcode) : Text.IsWord c.word := by
  cases c <;> decide

theorem Opcode.isReference_word (c : Opcode) : Text.isReference c.word = false := by
  cases c <;> decide

namespace Instruction

variable (owner : Option BufferId) (i : Instruction α (Operand α))

/-- The opcode comes first and the operands follow in their order. -/
theorem words_listing : Text.words (i.listing owner) =
    i.code.word :: i.operands.map fun x => x.2.2.listing owner := by
  have hoperands : ∀ t ∈ i.operands.map fun x => x.2.2.listing owner, Text.IsWord t := by
    intro t ht
    obtain ⟨x, -, rfl⟩ := List.mem_map.1 ht
    exact x.2.2.isWord_listing owner
  have hbrackets : i.listing owner = i.code.word ++ String.singleton '(' ++
      (", ".intercalate (i.operands.map fun x => x.2.2.listing owner) ++ String.singleton ')' ++
        "") := by
    rw [String.append_empty, ← String.append_assoc]
    rfl
  rw [hbrackets, Text.words_append_separator (by decide), Text.words_append_separator (by decide),
    Text.words_of_isWord i.code.isWord_word, Text.words_intercalate hoperands, Text.words_empty,
    List.append_nil, List.singleton_append]

/-- The words that refer to slots are the inputs in their order. -/
theorem references_listing : (Text.words (i.listing owner)).filter Text.isReference =
    i.inputs.map (Place.listing owner) := by
  rw [words_listing, List.filter_cons_of_neg (by rw [Opcode.isReference_word]; decide), inputs]
  induction i.operands with
  | nil => rfl
  | cons x xs ih =>
    obtain ⟨name, k, o⟩ := x
    simp only [List.map_cons, List.filterMap_cons]
    cases h : o.input? with
    | none => rw [Operand.listing_of_no_input h, List.filter_cons_of_neg (by decide), ih]
    | some place =>
      rw [Operand.listing_of_input h, List.filter_cons_of_pos (place.isReference_listing owner),
        ih, List.map_cons]

end Instruction

end DeferredMatrix
