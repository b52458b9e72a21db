import Almanac.Mat.Arithmetic

/-! # Matrix products

The general product `C := alpha * op(A) * op(B) + beta * C`, where `op` transposes an operand or
leaves it, and the products built on it. Three dense matrices go through a kernel on their blocks,
in which a read or write outside a block is a fault; otherwise single elements are read and written.
With `beta = 0` the old result is not read.
-/
namespace Almanac.Mat
set_option autoImplicit false
open Linear

/-- How an operand enters a product. -/
inductive Side where
  | plain
  | transposed
deriving DecidableEq, Repr

def Side.shape : Side → Shape → Shape
  | plain, s => s
  | transposed, s => (s.2, s.1)

/-- The factors of a general product. -/
structure Scaling (α : Type) where
  alpha : α
  beta : α

variable {α : Type}

section Finish
variable [Zero α] [One α] [Add α] [Mul α] [BEq α]

/-- A factor of one is left out. -/
def Scaling.scaled (s : Scaling α) (x : α) : α := if s.alpha == 1 then x else s.alpha * x

/-- The new entry from the sum of products and the old entry. -/
def Scaling.finish (s : Scaling α) (sum prior : α) : α :=
  if s.beta == 0 then s.scaled sum else s.scaled sum + s.beta * prior

end Finish

/-- The row `r` and column `c` of an operand as it enters the product. -/
def Side.entry [Zero α] (side : Side) (A : Mat α) (r c : Nat) : α :=
  match side with
  | plain => A.entry r c
  | transposed => A.entry c r

section Block

/-- The sizes of a product on blocks: the result is `m × n`, the inner dimension is `k`. -/
structure Extent where
  m : Nat
  n : Nat
  k : Nat
  aRows : Nat
  bRows : Nat

def writeAt (data : Array α) (i : Nat) (x : α) : Option (Array α) :=
  if i < data.size then some (data.setIfInBounds i x) else none

def modifyAt (data : Array α) (i : Nat) (f : α → α) : Option (Array α) := do
  writeAt data i (f (← data[i]?))

/-- The products of two runs of elements, one after the other. -/
def runProducts [Mul α] (a b : Array α) (aAt bAt : Nat → Nat) (k : Nat) : Option (List α) :=
  (List.range k).mapM fun p => do return (← a[aAt p]?) * (← b[bAt p]?)

variable [Zero α] [One α] [Add α] [Mul α] [Neg α] [BEq α]

/-- Scales column `j` of the result before anything is added to it. -/
def prepareColumn (s : Scaling α) (e : Extent) (j : Nat) (c : Array α) : Option (Array α) :=
  if s.beta == 0 then (List.range e.m).foldlM (fun c i => writeAt c (j * e.m + i) 0) c
  else if s.beta == 1 then some c
  else (List.range e.m).foldlM (fun c i => modifyAt c (j * e.m + i) (· * s.beta)) c

/-- Adds a multiple of column `p` of `a` to column `j` of the result. -/
def addColumn (e : Extent) (a : Array α) (factor : α) (p j : Nat) (c : Array α) :
    Option (Array α) :=
  (List.range e.m).foldlM (fun c i => do
    let x ← a[p * e.aRows + i]?
    modifyAt c (j * e.m + i) (· + x * factor)) c

/-- Both operands plain: column by column of the result. -/
def blockPlain (s : Scaling α) (e : Extent) (a b c : Array α) : Option (Array α) :=
  (List.range e.n).foldlM (fun c j => do
    let c ← prepareColumn s e j c
    (List.range e.k).foldlM (fun c p => do
      addColumn e a (s.scaled (← b[j * e.bRows + p]?)) p j c) c) c

/-- Entry by entry of the result, from the places of the factors of each sum. The sum starts at
`start`. -/
def blockEntries (s : Scaling α) (e : Extent) (start : α) (a b : Array α)
    (aAt bAt : Nat → Nat → Nat → Nat) (c : Array α) : Option (Array α) :=
  (columnwise e.m e.n).foldlM (fun c q => do
    let products ← runProducts a b (aAt q.1 q.2) (bAt q.1 q.2) e.k
    modifyAt c (q.2 * e.m + q.1) (s.finish (products.foldl (· + ·) start))) c

def blockProduct (s : Scaling α) (e : Extent) (sideA sideB : Side) (a b c : Array α) :
    Option (Array α) :=
  match sideA, sideB with
  | .plain, .plain => blockPlain s e a b c
  | .transposed, .plain =>
    blockEntries s e (-0) a b (fun i _ p => i * e.aRows + p) (fun _ j p => j * e.bRows + p) c
  | .plain, .transposed =>
    blockEntries s e 0 a b (fun i _ p => p * e.aRows + i) (fun _ j p => p * e.bRows + j) c
  | .transposed, .transposed =>
    blockEntries s e 0 a b (fun i _ p => i * e.aRows + p) (fun _ j p => p * e.bRows + j) c

end Block

section Elements
variable [Zero α] [One α] [Add α] [Mul α] [Neg α] [BEq α]

/-- The product entry by entry, read from the operands one by one. -/
def elementProduct (s : Scaling α) (sideA sideB : Side) (A B : Mat α) (m n k : Nat) (C : Mat α) :
    Mat α :=
  (columnwise m n).foldl (fun C q =>
    let sum := total ((List.range k).map fun p => sideA.entry A q.1 p * sideB.entry B p q.2)
    C.put q.1 q.2 (s.finish sum (C.entry q.1 q.2))) C

def setBlock (C : Mat α) (data : Array α) : Mat α :=
  if h : data.size = C.rows * C.columns then { C with data := data, size_eq := h } else C

/-- `C := alpha * op(A) * op(B) + beta * C`; the result is the state. -/
def gemm (s : Scaling α) (sideA sideB : Side) (A B : Mat α) : Change α Unit := do
  let (m, k) := sideA.shape A.shape
  let (inner, n) := sideB.shape B.shape
  Edit.require (checkShape "b" (k, n) (inner, n))
  let C ← Edit.current
  Edit.require (checkResultShape (m, n) C.shape)
  if s.alpha == 0 && s.beta == 0 then clear
  else
    match A.storage, B.storage, C.storage with
    | .dense, .dense, .dense =>
      let e : Extent := ⟨m, n, k, A.rows, B.rows⟩
      match blockProduct s e sideA sideB A.data B.data C.data with
      | some data => Edit.write fun C => C.setBlock data
      | none => Edit.require fault
    | _, _, _ => Edit.write (elementProduct s sideA sideB A B m n k)

/-- An operand of a product: the result itself as it was before, or another matrix. -/
inductive Operand (α : Type) where
  | this
  | other (A : Mat α)

/-- The result itself is read from a dense copy. -/
def Operand.resolve (C : Mat α) : Operand α → Mat α
  | this => C.toDense
  | other A => A

def gemmWith (s : Scaling α) (sideA sideB : Side) (a b : Operand α) : Change α Unit := do
  let C ← Edit.current
  gemm s sideA sideB (a.resolve C) (b.resolve C)

def multiplyInto (A B : Mat α) : Change α Unit := do
  Edit.require (checkShape "other" (A.columns, B.columns) B.shape)
  let C ← Edit.current
  Edit.require (checkResultShape (A.rows, B.columns) C.shape)
  gemm ⟨1, 0⟩ .plain .plain A B

def multiply (A B : Mat α) : Checked (Mat α) := do
  Edit.result (← zeros? A.rows B.columns) (A.multiplyInto B)

def multiplyAssign (B : Mat α) : Change α Unit := gemmWith ⟨1, 0⟩ .plain .plain .this (.other B)

end Elements

section Vectors
variable [Zero α] [Add α] [Mul α]

/-- A sum of products that starts at zero. -/
def accumulate (n : Nat) (f g : Nat → α) : α :=
  (List.range n).foldl (fun sum i => sum + f i * g i) 0

def multiplyVectorInto (A : Mat α) (v : Vec α) : Vec.Change α Unit := do
  Edit.require (checkCount "v" A.columns v.count)
  let result ← Edit.current
  Edit.require (checkResultCount A.rows result.count)
  Edit.write fun result =>
    result.writeFrom 0 A.rows fun r => accumulate A.columns (A.entry r) v.entry

def multiplyVector (A : Mat α) (v : Vec α) : Checked (Vec α) := do
  Edit.result (← Vec.zeros? A.rows) (A.multiplyVectorInto v)

def multiplyVectorAssign (A : Mat α) : Vec.Change α Unit := do
  Edit.require (checkSquare A.shape)
  let v ← Edit.current
  A.multiplyVectorInto v.toDense

def leftMultiplyInto (A : Mat α) (v : Vec α) : Vec.Change α Unit := do
  Edit.require (checkCount "v" A.rows v.count)
  let result ← Edit.current
  Edit.require (checkResultCount A.columns result.count)
  Edit.write fun result =>
    result.writeFrom 0 A.columns fun c => accumulate A.rows v.entry fun r => A.entry r c

def leftMultiply (A : Mat α) (v : Vec α) : Checked (Vec α) := do
  Edit.result (← Vec.zeros? A.columns) (A.leftMultiplyInto v)

end Vectors
end Almanac.Mat
