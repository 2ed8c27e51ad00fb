import DeferredMatrix.Proofs.Session.Runs
import DeferredMatrix.Session.Basic
import Mathlib.Data.List.Flatten

/-!
# Catalogs of holders

The objects of a catalog hold leases. When every name stands for one object, replacing an object
exchanges what it holds and erasing it takes that away.
-/

namespace DeferredMatrix

namespace Catalog

variable {β : Type} {c : Catalog β} {name other : String} {x y : β}

def names (c : Catalog β) : List String := c.map Prod.fst

theorem names_replace (c : Catalog β) (name : String) (x : β) :
    (c.replace name x).names = c.names := by
  induction c with
  | nil => rfl
  | cons entry c ih =>
    obtain ⟨n, y⟩ := entry
    unfold replace
    split
    · rfl
    · exact congrArg (n :: ·) ih

theorem names_erase (c : Catalog β) (name : String) : (c.erase name).names.Sublist c.names := by
  induction c with
  | nil => exact .slnil
  | cons entry c ih =>
    obtain ⟨n, y⟩ := entry
    unfold erase
    split
    · exact ih.trans (List.sublist_cons_self _ _)
    · exact ih.cons_cons n

theorem not_mem_names (h : c.get? name = none) : name ∉ c.names := by
  induction c with
  | nil => exact List.not_mem_nil
  | cons entry c ih =>
    obtain ⟨n, y⟩ := entry
    unfold get? at h
    split at h
    · cases h
    · rename_i hn
      intro hmem
      rcases List.mem_cons.1 hmem with rfl | hmem
      · exact hn rfl
      · exact ih h hmem

theorem mem_of_get? (h : c.get? name = some x) : (name, x) ∈ c := by
  induction c with
  | nil => cases h
  | cons entry c ih =>
    obtain ⟨n, y⟩ := entry
    unfold get? at h
    split at h
    · rename_i hn
      cases h
      cases hn
      exact List.mem_cons_self
    · exact List.mem_cons_of_mem _ (ih h)

theorem mem_replace {e : String × β} (h : e ∈ c.replace name x) : e ∈ c ∨ e = (name, x) := by
  induction c with
  | nil => cases h
  | cons entry c ih =>
    obtain ⟨n, y⟩ := entry
    unfold replace at h
    split at h
    · rename_i hn
      rcases List.mem_cons.1 h with rfl | h
      · exact Or.inr (by rw [hn])
      · exact Or.inl (List.mem_cons_of_mem _ h)
    · rcases List.mem_cons.1 h with rfl | h
      · exact Or.inl List.mem_cons_self
      · exact (ih h).imp_left (List.mem_cons_of_mem _)

theorem mem_erase {e : String × β} (h : e ∈ c.erase name) : e ∈ c := by
  induction c with
  | nil => cases h
  | cons entry c ih =>
    obtain ⟨n, y⟩ := entry
    unfold erase at h
    split at h
    · exact List.mem_cons_of_mem _ (ih h)
    · rcases List.mem_cons.1 h with rfl | h
      · exact List.mem_cons_self
      · exact List.mem_cons_of_mem _ (ih h)

theorem erase_of_not_mem (h : name ∉ c.names) : c.erase name = c := by
  induction c with
  | nil => rfl
  | cons entry c ih =>
    obtain ⟨n, y⟩ := entry
    have hn : n ≠ name := fun hn => h (hn ▸ List.mem_cons_self)
    have hc : name ∉ names c := fun hc => h (List.mem_cons_of_mem _ hc)
    unfold erase
    rw [if_neg hn, ih hc]

/-- A catalog around the object that has a name. -/
theorem exists_split (hc : c.names.Nodup) (h : c.get? name = some x) : ∃ c₁ c₂,
    c = c₁ ++ (name, x) :: c₂ ∧ (∀ y, c.replace name y = c₁ ++ (name, y) :: c₂) ∧
      c.erase name = c₁ ++ c₂ := by
  induction c with
  | nil => cases h
  | cons entry c ih =>
    obtain ⟨n, y⟩ := entry
    obtain ⟨hn, hc⟩ := List.nodup_cons.1 hc
    by_cases hname : n = name
    · subst hname
      obtain rfl : y = x := by simpa [get?] using h
      refine ⟨[], c, rfl, fun z => by simp [replace], ?_⟩
      have herase := erase_of_not_mem hn
      simpa [erase] using herase
    · have hget : get? name c = some x := by simpa [get?, hname] using h
      obtain ⟨c₁, c₂, rfl, hreplace, herase⟩ := ih hc hget
      refine ⟨(n, y) :: c₁, c₂, rfl, fun z => ?_, ?_⟩
      · simp only [replace, if_neg hname, hreplace, List.cons_append]
      · simp only [erase, if_neg hname, herase, List.cons_append]

end Catalog

/-! ## Holders -/

variable {α : Type}

/-- Who holds the leases of an object. -/
def Object.holders : Object α → List (Holder α)
  | buffer l => [.buffer l]
  | handle .. => []
  | draft d => [.draft d]
  | node n => [.node n]
  | graph g => nodeHolders g.nodes

namespace Catalog

variable {c : Catalog (Object α)} {name : String} {x : Object α}

def holders (c : Catalog (Object α)) : List (Holder α) := c.flatMap fun e => e.2.holders

theorem holders_insert (c : Catalog (Object α)) (name : String) (x : Object α) :
    (c.insert name x).holders = x.holders ++ c.holders := rfl

theorem exists_holders (hc : c.names.Nodup) (h : c.get? name = some x) : ∃ hs,
    c.holders.Perm (x.holders ++ hs) ∧ (∀ y, (c.replace name y).holders.Perm (y.holders ++ hs)) ∧
      (c.erase name).holders.Perm hs := by
  obtain ⟨c₁, c₂, rfl, hreplace, herase⟩ := exists_split hc h
  have hperm : ∀ y : Object α, (holders (c₁ ++ (name, y) :: c₂)).Perm
      (y.holders ++ (holders c₁ ++ holders c₂)) := by
    intro y
    unfold holders
    rw [List.flatMap_append, List.flatMap_cons, ← List.append_assoc, ← List.append_assoc]
    exact List.perm_append_comm.append_right _
  refine ⟨holders c₁ ++ holders c₂, hperm x, fun y => ?_, ?_⟩
  · rw [hreplace]
    exact hperm y
  · rw [herase]
    unfold holders
    rw [List.flatMap_append]

theorem mem_holders {h : Holder α} (hx : c.get? name = some x) (hh : h ∈ x.holders) :
    h ∈ c.holders :=
  List.mem_flatMap.2 ⟨_, mem_of_get? hx, hh⟩

end Catalog

end DeferredMatrix
