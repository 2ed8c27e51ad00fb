import DeferredMatrix.Node.Compound
import DeferredMatrix.Proofs.Program.Execution
import DeferredMatrix.Proofs.Program.Listing

/-!
# Outlines of programs

The outline of a program has the opcode of every step and the roles of its operands: a literal, a
value from elsewhere, or a slot of the program itself. Listings show outlines and nothing else.

* `Text.lines_intercalate` : lines that were put together come apart again.
* `Text.exists_word_of_occurs` : what occurs in a text without separators occurs in a word.
* `Instruction.listing_eq_iff` : instructions with the same listing have the same outline.
* `Compound.listing_eq_iff` : so do compounds whose steps are in their own slots.
-/

namespace DeferredMatrix

/-! ## Lines, and texts in words -/

namespace Text

/-- What stands between line breaks. -/
def lines (text : String) : List String := (text.toList.splitOn '\n').map String.ofList

theorem lines_intercalate {ts : List String} (hne : ts ≠ []) (h : ∀ t ∈ ts, '\n' ∉ t.toList) :
    lines ("\n".intercalate ts) = ts := by
  have hbreak : ("\n".intercalate ts).toList = ['\n'].intercalate (ts.map String.toList) :=
    String.toList_intercalate
  rw [lines, hbreak, List.splitOn_intercalate, List.map_map]
  · simp
  · intro l hl
    obtain ⟨t, ht, rfl⟩ := List.mem_map.1 hl
    exact h t ht
  · simpa using hne

/-- Some part of the text is `part`. -/
def Occurs (part text : String) : Prop := ∃ before after, text = before ++ part ++ after

theorem occurs_iff {part text : String} : Occurs part text ↔ part.toList <:+: text.toList := by
  constructor
  · rintro ⟨before, after, rfl⟩
    exact ⟨before.toList, after.toList, by simp⟩
  · rintro ⟨before, after, h⟩
    exact ⟨.ofList before, .ofList after, String.toList_inj.1 (by simp [← h])⟩

/-- A part without separators at the start of a text lies before the first separator. -/
theorem isPrefix_head_splitOnP {p : Char → Bool} {l text : List Char}
    (hl : ∀ c ∈ l, p c = false) (h : l <+: text) : ∃ w ∈ text.splitOnP p, l <+: w := by
  obtain ⟨w, ws, hw, hprefix⟩ : ∃ w ws, text.splitOnP p = w :: ws ∧ l <+: w := by
    induction l generalizing text with
    | nil =>
      obtain ⟨w, ws, hw⟩ := List.exists_cons_of_ne_nil (List.splitOnP_ne_nil p text)
      exact ⟨w, ws, hw, List.nil_prefix⟩
    | cons c l ih =>
      obtain ⟨rest, rfl⟩ := h
      obtain ⟨w, ws, hw, hprefix⟩ :=
        ih (fun d hd => hl d (List.mem_cons_of_mem _ hd)) (List.prefix_append l rest)
      refine ⟨c :: w, ws, ?_, List.cons_prefix_cons.2 ⟨rfl, hprefix⟩⟩
      rw [List.cons_append, List.splitOnP_cons_eq_if_modifyHead,
        if_neg (by simp [hl c List.mem_cons_self]), hw, List.modifyHead_cons]
  exact ⟨w, hw ▸ List.mem_cons_self, hprefix⟩

theorem exists_infix_splitOnP {p : Char → Bool} {l text : List Char}
    (hl : ∀ c ∈ l, p c = false) (h : l <:+: text) : ∃ w ∈ text.splitOnP p, l <:+: w := by
  induction text with
  | nil => exact ⟨[], by simp, h⟩
  | cons c text ih =>
    rcases List.infix_cons_iff.1 h with hstart | hlater
    · obtain ⟨w, hw, hprefix⟩ := isPrefix_head_splitOnP hl hstart
      exact ⟨w, hw, hprefix.isInfix⟩
    · obtain ⟨w, hw, hwithin⟩ := ih hlater
      rw [List.splitOnP_cons_eq_if_modifyHead]
      split
      · exact ⟨w, List.mem_cons_of_mem _ hw, hwithin⟩
      · cases hsplit : text.splitOnP p with
        | nil => exact absurd hsplit (List.splitOnP_ne_nil p text)
        | cons u us =>
          rw [hsplit] at hw
          rcases List.mem_cons.1 hw with rfl | hus
          · exact ⟨c :: w, List.mem_cons_self, List.infix_cons hwithin⟩
          · exact ⟨w, List.mem_cons_of_mem _ hus, hwithin⟩

/-- What occurs in a text without separators occurs in one of its words. -/
theorem exists_word_of_occurs {part text : String} (hp : IsWord part) (h : Occurs part text) :
    ∃ w ∈ words text, Occurs part w := by
  obtain ⟨w, hw, hwithin⟩ := exists_infix_splitOnP hp.2 (occurs_iff.1 h)
  have hne : w ≠ [] := by
    rintro rfl
    exact hp.1 (String.toList_eq_nil_iff.1 (List.infix_nil.1 hwithin))
  refine ⟨.ofList w, List.mem_map.2 ⟨w, List.mem_filter.2 ⟨hw, by simpa using hne⟩, rfl⟩, ?_⟩
  exact occurs_iff.2 (by simpa using hwithin)

end Text

/-! ## Roles of operands -/

/-- What an operand is to the program that it stands in. -/
inductive Role where
  | literal
  | external
  /-- The result of a step of the program itself. -/
  | own (slot : Nat)
  deriving DecidableEq

namespace Role

def word : Role → String
  | literal => "literal"
  | external => "external"
  | own slot => "$" ++ toString slot

theorem toList_word_own (slot : Nat) : (own slot).word.toList = '$' :: Nat.toDigits 10 slot := by
  rw [word, String.toList_append, ← Nat.toList_repr]
  rfl

theorem isWord_word (r : Role) : Text.IsWord r.word := by
  cases r with
  | literal => decide
  | external => decide
  | own slot => exact Place.isWord_listing (some ⟨0⟩) ⟨⟨0⟩, slot⟩

theorem dollar_notMem_digits (n : Nat) : '$' ∉ Nat.toDigits 10 n := fun h => by
  cases Nat.isDigit_of_mem_toDigits (by decide) (by decide) h

/-- A number that another one's digits start with is not greater. -/
theorem le_of_digits_prefix {m n : Nat} (h : Nat.toDigits 10 m <+: Nat.toDigits 10 n) :
    m ≤ n := by
  obtain ⟨rest, hrest⟩ := h
  have hvalue : 10 ^ rest.length * m + Nat.ofDigitChars 10 rest 0 = n := by
    rw [← Nat.ofDigitChars_eq_ofDigitChars_zero, ← Nat.ofDigitChars_ten_toDigits (n := m),
      ← Nat.ofDigitChars_append, hrest, Nat.ofDigitChars_ten_toDigits]
  have hle : m ≤ 10 ^ rest.length * m := Nat.le_mul_of_pos_left m (Nat.pow_pos (by decide))
  omega

/-- A word that the name of a slot occurs in is the name of a slot, and not of an earlier one. -/
theorem le_of_occurs {j : Nat} {r : Role} (h : Text.Occurs (own j).word r.word) :
    ∃ slot, r = own slot ∧ j ≤ slot := by
  have hwithin := Text.occurs_iff.1 h
  rw [toList_word_own] at hwithin
  cases r with
  | literal => exact absurd (hwithin.subset List.mem_cons_self) (by decide)
  | external => exact absurd (hwithin.subset List.mem_cons_self) (by decide)
  | own slot =>
    rw [toList_word_own] at hwithin
    rcases List.infix_cons_iff.1 hwithin with hstart | hlater
    · exact ⟨slot, rfl, le_of_digits_prefix (List.cons_prefix_cons.1 hstart).2⟩
    · exact absurd (hlater.subset List.mem_cons_self) (dollar_notMem_digits slot)

theorem word_injective {r s : Role} (h : r.word = s.word) : r = s := by
  have hstart (slot : Nat) : (own slot).word.toList.head? = some '$' := by rw [toList_word_own]; rfl
  cases r with
  | own m =>
    obtain ⟨n, rfl, hmn⟩ := le_of_occurs (j := m) (r := s) ⟨"", "", by simp [h]⟩
    obtain ⟨m', hm', hnm⟩ := le_of_occurs (j := n) (r := own m) ⟨"", "", by simp [h]⟩
    cases hm'
    rw [Nat.le_antisymm hmn hnm]
  | literal =>
    cases s with
    | literal => rfl
    | external => exact absurd h (by decide)
    | own n => cases (congrArg (fun t => t.toList.head?) h).trans (hstart n)
  | external =>
    cases s with
    | literal => exact absurd h (by decide)
    | external => rfl
    | own n => cases (congrArg (fun t => t.toList.head?) h).trans (hstart n)

end Role

variable {α : Type} {k : Kind}

/-- The role of an operand in a program whose results lie in `owner`. -/
def Operand.role (owner : BufferId) : Operand α k → Role
  | literal _ => .literal
  | handle h => if h.buffer = owner then .own h.slot else .external

theorem Operand.listing_eq_word (owner : BufferId) (o : Operand α k) :
    o.listing (some owner) = (o.role owner).word := by
  cases o with
  | literal v => rfl
  | handle h =>
    simp only [listing, role, Option.some.injEq]
    split <;> rfl

/-- A slot of the program itself is read from there. -/
theorem Operand.input?_of_role {owner : BufferId} {o : Operand α k} {slot : Nat}
    (h : o.role owner = .own slot) : o.input? = some ⟨owner, slot⟩ := by
  cases o with
  | literal v => cases h
  | handle g =>
    simp only [role] at h
    split at h <;> cases h
    rename_i hbuffer
    rw [← hbuffer]
    rfl

/-! ## Outlines of instructions -/

/-- The opcode and the roles of the operands in their order. -/
abbrev Outline := Opcode × List Role

theorem Opcode.word_injective {c d : Opcode} (h : c.word = d.word) : c = d := by
  cases c <;> cases d <;> first | rfl | exact absurd h (by decide)

theorem Opcode.notMem_word (c : Opcode) : '$' ∉ c.word.toList ∧ '\n' ∉ c.word.toList := by
  cases c <;> decide

namespace Instruction

variable (owner : BufferId) (i : Instruction α (Operand α))

def outline : Outline := (i.code, i.operands.map fun x => x.2.2.role owner)

theorem words_listing_outline : Text.words (i.listing (some owner)) =
    (i.outline owner).1.word :: (i.outline owner).2.map Role.word := by
  rw [words_listing, outline, List.map_map]
  simp only [Operand.listing_eq_word, Function.comp_def]

variable {owner i}

theorem listing_eq_of_outline {owner' : BufferId} {i' : Instruction α (Operand α)}
    (h : i.outline owner = i'.outline owner') :
    i.listing (some owner) = i'.listing (some owner') := by
  obtain ⟨hcode, hroles⟩ := Prod.mk.inj h
  have hwords := congrArg (List.map Role.word) hroles
  simp only [List.map_map, Function.comp_def, ← Operand.listing_eq_word] at hwords
  rw [listing, listing, hcode, hwords]

/-- Instructions with the same listing have the same outline. -/
theorem listing_eq_iff {owner' : BufferId} {i' : Instruction α (Operand α)} :
    i.listing (some owner) = i'.listing (some owner') ↔ i.outline owner = i'.outline owner' := by
  refine ⟨fun h => ?_, listing_eq_of_outline⟩
  have hwords := congrArg Text.words h
  rw [words_listing_outline, words_listing_outline] at hwords
  obtain ⟨hcode, hroles⟩ := List.cons.inj hwords
  have hroles' := List.map_inj_right (fun _ _ => Role.word_injective) |>.1 hroles
  exact Prod.ext (Opcode.word_injective hcode) hroles'

/-- Where the name of a slot occurs in a listing, the instruction reads a slot of the program
that is not an earlier one. -/
theorem exists_input_of_occurs {j : Nat}
    (h : Text.Occurs (Role.own j).word (i.listing (some owner))) :
    ∃ slot, ⟨owner, slot⟩ ∈ i.inputs ∧ j ≤ slot := by
  obtain ⟨w, hw, hoccurs⟩ := Text.exists_word_of_occurs (Role.isWord_word _) h
  rw [words_listing_outline] at hw
  rcases List.mem_cons.1 hw with rfl | hroles
  · have hdollar := (Text.occurs_iff.1 hoccurs).subset
      (Role.toList_word_own j ▸ List.mem_cons_self : '$' ∈ (Role.own j).word.toList)
    exact absurd hdollar (Opcode.notMem_word _).1
  · obtain ⟨r, hr, rfl⟩ := List.mem_map.1 hroles
    obtain ⟨slot, rfl, hle⟩ := Role.le_of_occurs hoccurs
    obtain ⟨x, hx, hrole⟩ := List.mem_map.1 hr
    exact ⟨slot, Instruction.mem_inputs.2 ⟨x, hx, Operand.input?_of_role hrole⟩, hle⟩

/-- A listed instruction stays on its line. -/
theorem break_notMem_listing : '\n' ∉ (i.listing (some owner)).toList := by
  intro h
  obtain ⟨before, after, hsplit⟩ := List.append_of_mem h
  have hoccurs : Text.Occurs "\n" (i.listing (some owner)) :=
    Text.occurs_iff.2 ⟨before, after, by rw [hsplit]; simp⟩
  obtain ⟨w, hw, hbreak⟩ := Text.exists_word_of_occurs (by decide) hoccurs
  have hmem : '\n' ∈ w.toList := (Text.occurs_iff.1 hbreak).subset (by decide)
  rw [words_listing_outline] at hw
  rcases List.mem_cons.1 hw with rfl | hroles
  · exact (Opcode.notMem_word _).2 hmem
  · obtain ⟨r, -, rfl⟩ := List.mem_map.1 hroles
    cases r with
    | literal => revert hmem; decide
    | external => revert hmem; decide
    | own slot =>
      rw [Role.toList_word_own] at hmem
      rcases List.mem_cons.1 hmem with hdollar | hdigit
      · cases hdollar
      · cases Nat.isDigit_of_mem_toDigits (by decide) (by decide) hdigit

end Instruction

/-! ## Outlines of compounds -/

/-- The line of a step in a listing. -/
def Step.line (owner : BufferId) (s : Step α) : String :=
  "$" ++ toString s.slot ++ " = " ++ s.instruction.listing (some owner)

theorem Step.break_notMem_line (owner : BufferId) (s : Step α) :
    '\n' ∉ (s.line owner).toList := by
  have hname : '\n' ∉ ("$" ++ toString s.slot).toList := by
    rw [show "$" ++ toString s.slot = (Role.own s.slot).word from rfl, Role.toList_word_own]
    intro h
    rcases List.mem_cons.1 h with hdollar | hdigit
    · cases hdollar
    · cases Nat.isDigit_of_mem_toDigits (by decide) (by decide) hdigit
  simp only [line, String.toList_append, List.mem_append, not_or] at hname ⊢
  exact ⟨⟨hname, by decide⟩, Instruction.break_notMem_listing⟩

namespace Compound

def outline (c : Compound α) : List Outline :=
  c.steps.map fun s => s.instruction.outline c.buffer

/-- Every step has its own line. -/
theorem lines_listing (c : Compound α) :
    Text.lines c.listing = c.steps.map (Step.line c.buffer) := by
  refine Text.lines_intercalate (by simpa using c.steps_ne_nil) fun t ht => ?_
  obtain ⟨s, -, rfl⟩ := List.mem_map.1 ht
  exact s.break_notMem_line c.buffer

variable {c c' : Compound α}

/-- Compounds whose steps are in their own slots have the same listing exactly if they have the
same outline. -/
theorem listing_eq_iff (hc : ∀ (i : Nat) (s : Step α), c.steps[i]? = some s → s.slot = i)
    (hc' : ∀ (i : Nat) (s : Step α), c'.steps[i]? = some s → s.slot = i) :
    c.listing = c'.listing ↔ c.outline = c'.outline := by
  have hstep {s s' : Step α} (hslot : s.slot = s'.slot) :
      s.line c.buffer = s'.line c'.buffer ↔
        s.instruction.outline c.buffer = s'.instruction.outline c'.buffer := by
    rw [Step.line, Step.line, hslot, String.append_right_inj, Instruction.listing_eq_iff]
  have hlines : c.steps.map (Step.line c.buffer) = c'.steps.map (Step.line c'.buffer) ↔
      c.outline = c'.outline := by
    simp only [outline, List.ext_getElem?_iff, List.getElem?_map]
    refine forall_congr' fun i => ?_
    cases hs : c.steps[i]? with
    | none => cases c'.steps[i]? <;> simp
    | some s =>
      cases hs' : c'.steps[i]? with
      | none => simp
      | some s' => simp [hstep ((hc i s hs).trans (hc' i s' hs').symm)]
  refine ⟨fun h => hlines.1 ?_, fun h => congrArg ("\n".intercalate ·) (hlines.2 h)⟩
  rw [← lines_listing, h, lines_listing]

end Compound

end DeferredMatrix
