import DeferredMatrix.Value.Basic

/-!
# Kernels of matrix arithmetic

Products, sums, transposition, scaling, and the determinant and adjugate by two-by-two minors.
Each definition fixes the order of its operations, which matters where they round. Sums of
products start from negative zero, the value that addition leaves alone even when every
product is a negative zero.
-/

namespace DeferredMatrix

variable {α : Type}

/-- The sum of the elements from left to right. -/
def Vec4.sum [Add α] [Neg α] [Zero α] (v : Vec4 α) : α := -0 + v.x + v.y + v.z + v.w

/-- The product of a row vector and a matrix. -/
def Vec4.transform [Add α] [Mul α] [Neg α] [Zero α] (v : Vec4 α) (m : Mat4 α) : Vec4 α :=
  .ofFn fun j => (Vec4.ofFn fun k => v.get k * m.get k j).sum

namespace Mat4

def multiply [Add α] [Mul α] [Neg α] [Zero α] (a b : Mat4 α) : Mat4 α :=
  .ofFn fun i j => (Vec4.ofFn fun k => a.get i k * b.get k j).sum

def transpose (m : Mat4 α) : Mat4 α := .ofFn fun i j => m.get j i

def add [Add α] (a b : Mat4 α) : Mat4 α := .ofFn fun i j => a.get i j + b.get i j

def scale [Mul α] (m : Mat4 α) (factor : α) : Mat4 α := .ofFn fun i j => m.get i j * factor

/-! ## Minors -/

/-- The two-by-two minors of a pair of rows, by the columns they take. -/
structure Minors (α : Type) where
  m01 : α
  m02 : α
  m03 : α
  m12 : α
  m13 : α
  m23 : α

/-- The minors of the rows `u` above `v`. -/
def Minors.ofRows [Sub α] [Mul α] (u v : Vec4 α) : Minors α where
  m01 := u.x * v.y - v.x * u.y
  m02 := u.x * v.z - v.x * u.z
  m03 := u.x * v.w - v.x * u.w
  m12 := u.y * v.z - v.y * u.z
  m13 := u.y * v.w - v.y * u.w
  m23 := u.z * v.w - v.z * u.w

def topMinors [Sub α] [Mul α] (m : Mat4 α) : Minors α := .ofRows m.rows.x m.rows.y

def bottomMinors [Sub α] [Mul α] (m : Mat4 α) : Minors α := .ofRows m.rows.z m.rows.w

/-- Expansion along the top two rows. -/
def determinant [Add α] [Sub α] [Mul α] (m : Mat4 α) : α :=
  let s := m.topMinors
  let c := m.bottomMinors
  s.m01 * c.m23 - s.m02 * c.m13 + s.m03 * c.m12 + s.m12 * c.m03 - s.m13 * c.m02 + s.m23 * c.m01

/-- The transpose of the matrix of cofactors, each expanded along one row and the minors of
the other pair of rows. -/
def adjugate [Add α] [Sub α] [Mul α] [Neg α] (m : Mat4 α) : Mat4 α :=
  let s := m.topMinors
  let c := m.bottomMinors
  let p := m.rows.x
  let q := m.rows.y
  let r := m.rows.z
  let t := m.rows.w
  ⟨⟨⟨q.y * c.m23 - q.z * c.m13 + q.w * c.m12,
      -p.y * c.m23 + p.z * c.m13 - p.w * c.m12,
      t.y * s.m23 - t.z * s.m13 + t.w * s.m12,
      -r.y * s.m23 + r.z * s.m13 - r.w * s.m12⟩,
    ⟨-q.x * c.m23 + q.z * c.m03 - q.w * c.m02,
      p.x * c.m23 - p.z * c.m03 + p.w * c.m02,
      -t.x * s.m23 + t.z * s.m03 - t.w * s.m02,
      r.x * s.m23 - r.z * s.m03 + r.w * s.m02⟩,
    ⟨q.x * c.m13 - q.y * c.m03 + q.w * c.m01,
      -p.x * c.m13 + p.y * c.m03 - p.w * c.m01,
      t.x * s.m13 - t.y * s.m03 + t.w * s.m01,
      -r.x * s.m13 + r.y * s.m03 - r.w * s.m01⟩,
    ⟨-q.x * c.m12 + q.y * c.m02 - q.z * c.m01,
      p.x * c.m12 - p.y * c.m02 + p.z * c.m01,
      -t.x * s.m12 + t.y * s.m02 - t.z * s.m01,
      r.x * s.m12 - r.y * s.m02 + r.z * s.m01⟩⟩⟩

end Mat4

end DeferredMatrix
