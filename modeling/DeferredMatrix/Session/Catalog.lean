/-!
# Catalogs

A catalog lists things under names, the newest first. Looking a name up gives the newest thing
under it.
-/

namespace DeferredMatrix

abbrev Catalog (β : Type) := List (String × β)

namespace Catalog

variable {β : Type}

def get? (name : String) : Catalog β → Option β
  | [] => none
  | (n, x) :: c => if n = name then some x else get? name c

def insert (c : Catalog β) (name : String) (x : β) : Catalog β := (name, x) :: c

/-- Puts `x` in the place of whatever has the name. -/
def replace (name : String) (x : β) : Catalog β → Catalog β
  | [] => []
  | (n, y) :: c => if n = name then (n, x) :: c else (n, y) :: replace name x c

def erase (name : String) : Catalog β → Catalog β
  | [] => []
  | (n, y) :: c => if n = name then erase name c else (n, y) :: erase name c

theorem get?_insert (c : Catalog β) (name other : String) (x : β) :
    (c.insert name x).get? other = if name = other then some x else c.get? other := rfl

theorem get?_replace (c : Catalog β) (name other : String) (x : β) :
    (c.replace name x).get? other =
      if name = other then (c.get? name).map fun _ => x else c.get? other := by
  induction c with
  | nil => simp [replace, get?]
  | cons entry c ih =>
    obtain ⟨n, y⟩ := entry
    simp only [replace]
    split
    · rename_i hn
      subst hn
      simp only [get?, if_true, Option.map_some]
      split <;> rfl
    · rename_i hn
      simp only [get?, ih, if_neg hn]
      split
      · rename_i h
        rw [if_neg fun hname => hn (h.trans hname.symm)]
      · rfl

theorem get?_erase (c : Catalog β) (name other : String) :
    (c.erase name).get? other = if name = other then none else c.get? other := by
  induction c with
  | nil => simp [erase, get?]
  | cons entry c ih =>
    obtain ⟨n, y⟩ := entry
    simp only [erase]
    split
    · rename_i hn
      subst hn
      simp only [ih, get?]
      split <;> rfl
    · rename_i hn
      simp only [get?, ih]
      split
      · rename_i h
        rw [if_neg fun hname => hn (h.trans hname.symm)]
      · rfl

end Catalog

end DeferredMatrix
