import Mathlib.Data.List.Basic
import Almanac.Mat.Product

/-! # Placement of elements in a buffer

Either storage gives every position of a matrix a place of its own in the buffer. A kernel acts on a
buffer when it reads and writes inside it and changes each element by a function of that element
alone. Such actions are closed under sequence and iteration, so that a loop acts on an element as the
loop of the changes does.
-/
namespace Almanac.Mat
set_option autoImplicit false

variable {α : Type}

structure Placement (rows columns : Nat) (place : Nat → Nat → Nat) : Prop where
  lt : ∀ {r c}, r < rows → c < columns → place r c < rows * columns
  injective : ∀ {r c r' c'}, r < rows → c < columns → r' < rows → c' < columns →
    place r c = place r' c' → r = r' ∧ c = c'

section Linear
variable {m n a b : Nat}

theorem linear_lt (ha : a < m) (hb : b < n) : a * n + b < m * n :=
  calc a * n + b < a * n + n := Nat.add_lt_add_left hb (a * n)
    _ = (a + 1) * n := (Nat.succ_mul a n).symm
    _ ≤ m * n := Nat.mul_le_mul_right n ha

theorem linear_injective {a' b' : Nat} (hb : b < n) (hb' : b' < n)
    (h : a * n + b = a' * n + b') : a = a' ∧ b = b' := by
  have hn : 0 < n := Nat.lt_of_le_of_lt (Nat.zero_le b) hb
  have hQuotient : ∀ q r, r < n → (q * n + r) / n = q := by
    intro q r hr
    rw [Nat.add_comm, Nat.add_mul_div_right r q hn, Nat.div_eq_of_lt hr, Nat.zero_add]
  have ha : a = a' := by rw [← hQuotient a b hb, h, hQuotient a' b' hb']
  subst ha
  exact ⟨rfl, Nat.add_left_cancel h⟩

end Linear

theorem placement_byColumns (m n : Nat) : Placement m n fun r c => c * m + r where
  lt hr hc := by
    rw [Nat.mul_comm m n]
    exact linear_lt hc hr
  injective hr _ hr' _ h := (linear_injective hr hr' h).symm

theorem placement_byRows (m n : Nat) : Placement m n fun r c => r * n + c where
  lt hr hc := linear_lt hr hc
  injective _ hc _ hc' h := linear_injective hc hc' h

theorem offset_of_dense {A : Mat α} (h : A.storage = .dense) :
    A.offset = fun r c => c * A.rows + r := by
  funext r c
  rw [offset, h]

theorem offset_of_scattered {A : Mat α} (h : A.storage = .scattered) :
    A.offset = fun r c => r * A.columns + c := by
  funext r c
  rw [offset, h]

theorem placement_offset (A : Mat α) : Placement A.rows A.columns A.offset := by
  cases h : A.storage with
  | dense =>
    rw [offset_of_dense h]
    exact placement_byColumns A.rows A.columns
  | scattered =>
    rw [offset_of_scattered h]
    exact placement_byRows A.rows A.columns

theorem getElem?_offset [Zero α] (A : Mat α) {r c : Nat} (hr : r < A.rows) (hc : c < A.columns) :
    A.data[A.offset r c]? = some (A.entry r c) := by
  have hLt : A.offset r c < A.data.size := by
    rw [A.size_eq]
    exact A.placement_offset.lt hr hc
  rw [entry, Array.getElem?_eq_getElem hLt, Array.getD_eq_getD_getElem?,
    Array.getElem?_eq_getElem hLt]
  rfl

theorem getElem?_of_dense [Zero α] {A : Mat α} {r c : Nat} (hDense : A.storage = .dense)
    (hr : r < A.rows) (hc : c < A.columns) : A.data[c * A.rows + r]? = some (A.entry r c) := by
  have hRead := A.getElem?_offset hr hc
  rwa [offset_of_dense hDense] at hRead

/-- A kernel that keeps inside a buffer and changes the element at every position by `change`. -/
def Acts (rows columns : Nat) (place : Nat → Nat → Nat) (kernel : Array α → Option (Array α))
    (change : Nat → Nat → α → α) : Prop :=
  ∀ data : Array α, data.size = rows * columns → ∃ next, kernel data = some next ∧
    next.size = rows * columns ∧ ∀ r c x, r < rows → c < columns →
      data[place r c]? = some x → next[place r c]? = some (change r c x)

namespace Acts
variable {rows columns : Nat} {place : Nat → Nat → Nat}
  {kernel kernel' : Array α → Option (Array α)} {change change' : Nat → Nat → α → α}

theorem congr (h : Acts rows columns place kernel change)
    (hChange : ∀ r c x, r < rows → c < columns → change r c x = change' r c x) :
    Acts rows columns place kernel change' := by
  intro data hSize
  obtain ⟨next, hNext, hNextSize, hPlaces⟩ := h data hSize
  refine ⟨next, hNext, hNextSize, fun r c x hr hc hx => ?_⟩
  rw [← hChange r c x hr hc]
  exact hPlaces r c x hr hc hx

theorem keep : Acts rows columns place (some : Array α → Option (Array α)) fun _ _ x => x :=
  fun data hSize => ⟨data, rfl, hSize, fun _ _ _ _ _ hx => hx⟩

theorem bind (h : Acts rows columns place kernel change)
    (h' : Acts rows columns place kernel' change') :
    Acts rows columns place (fun data => (kernel data).bind kernel')
      fun r c x => change' r c (change r c x) := by
  intro data hSize
  obtain ⟨next, hNext, hNextSize, hPlaces⟩ := h data hSize
  obtain ⟨last, hLast, hLastSize, hPlaces'⟩ := h' next hNextSize
  refine ⟨last, ?_, hLastSize, fun r c x hr hc hx => ?_⟩
  · simp only [hNext, Option.bind_some, hLast]
  · exact hPlaces' r c _ hr hc (hPlaces r c x hr hc hx)

theorem foldlM {ι : Type} {step : Array α → ι → Option (Array α)} {change : ι → Nat → Nat → α → α}
    (qs : List ι) (h : ∀ q ∈ qs, Acts rows columns place (step · q) (change q)) :
    Acts rows columns place (qs.foldlM step) fun r c x => qs.foldl (fun x q => change q r c x) x := by
  induction qs with
  | nil => exact keep
  | cons q qs ih =>
    have hRest := ih fun p hp => h p (List.mem_cons_of_mem q hp)
    exact (h q List.mem_cons_self).bind hRest

end Acts

theorem acts_map {rows columns : Nat} {place : Nat → Nat → Nat} (f : α → α) :
    Acts rows columns place (fun data => some (data.map f)) fun _ _ x => f x := by
  intro data hSize
  refine ⟨_, rfl, by rw [Array.size_map, hSize], fun r c x _ _ hx => ?_⟩
  rw [Array.getElem?_map, hx]
  rfl

theorem acts_writeAt {rows columns r₀ c₀ : Nat} {place : Nat → Nat → Nat}
    (hPlace : Placement rows columns place) (hr₀ : r₀ < rows) (hc₀ : c₀ < columns) (y : α) :
    Acts rows columns place (writeAt · (place r₀ c₀) y)
      fun r c x => if r = r₀ ∧ c = c₀ then y else x := by
  intro data hSize
  have hLt : place r₀ c₀ < data.size := hSize ▸ hPlace.lt hr₀ hc₀
  refine ⟨_, if_pos hLt, by rw [Array.size_setIfInBounds, hSize], fun r c x hr hc hx => ?_⟩
  by_cases hHere : r = r₀ ∧ c = c₀
  · obtain ⟨rfl, rfl⟩ := hHere
    simp only [Array.getElem?_setIfInBounds_self_of_lt hLt, and_self, if_true]
  · have hNe : place r₀ c₀ ≠ place r c := by
      intro hEq
      obtain ⟨rfl, rfl⟩ := hPlace.injective hr₀ hc₀ hr hc hEq
      exact hHere ⟨rfl, rfl⟩
    simp only [Array.getElem?_setIfInBounds_ne hNe, if_neg hHere, hx]

theorem acts_modifyAt {rows columns r₀ c₀ : Nat} {place : Nat → Nat → Nat}
    (hPlace : Placement rows columns place) (hr₀ : r₀ < rows) (hc₀ : c₀ < columns) (f : α → α) :
    Acts rows columns place (modifyAt · (place r₀ c₀) f)
      fun r c x => if r = r₀ ∧ c = c₀ then f x else x := by
  intro data hSize
  have hLt : place r₀ c₀ < data.size := hSize ▸ hPlace.lt hr₀ hc₀
  have hRead := Array.getElem?_eq_getElem hLt
  obtain ⟨next, hNext, hNextSize, hPlaces⟩ :=
    acts_writeAt hPlace hr₀ hc₀ (f data[place r₀ c₀]) data hSize
  refine ⟨next, ?_, hNextSize, fun r c x hr hc hx => ?_⟩
  · simp only [modifyAt, hRead]
    exact hNext
  · rw [hPlaces r c x hr hc hx]
    by_cases hHere : r = r₀ ∧ c = c₀
    · obtain ⟨rfl, rfl⟩ := hHere
      obtain rfl : data[place r c] = x := Option.some.inj (hRead.symm.trans hx)
      rfl
    · simp only [if_neg hHere]

section Loops
variable {rows columns : Nat} {place : Nat → Nat → Nat}

theorem foldl_if_eq {ι : Type} [DecidableEq ι] {qs : List ι} (hNodup : qs.Nodup) (p : ι)
    (f : α → α) (x : α) :
    qs.foldl (fun x q => if p = q then f x else x) x = if p ∈ qs then f x else x := by
  induction qs generalizing x with
  | nil => rfl
  | cons q qs ih =>
    obtain ⟨hq, hNodup⟩ := List.nodup_cons.mp hNodup
    rw [List.foldl_cons, ih hNodup]
    by_cases hp : p = q
    · subst hp
      rw [if_neg hq, if_pos rfl, if_pos List.mem_cons_self]
    · simp only [List.mem_cons, hp, false_or, if_false]

theorem foldl_range_if_eq {n p : Nat} (hp : p < n) (f : α → α) (x : α) :
    (List.range n).foldl (fun x q => if p = q then f x else x) x = f x := by
  rw [foldl_if_eq List.nodup_range, if_pos (List.mem_range.mpr hp)]

namespace Acts

/-- A loop over the rows that changes one element of a column each time. -/
theorem downColumn {step : Array α → Nat → Option (Array α)} {f : Nat → Nat → α → α} {j : Nat}
    (h : ∀ i < rows, Acts rows columns place (step · i)
      fun r c x => if r = i ∧ c = j then f r c x else x) :
    Acts rows columns place ((List.range rows).foldlM step)
      fun r c x => if c = j then f r c x else x := by
  refine (foldlM (List.range rows) fun i hi => h i (List.mem_range.mp hi)).congr ?_
  intro r c x hr _
  by_cases hc : c = j
  · simp only [hc, and_true, if_true]
    exact foldl_range_if_eq hr (f r j) x
  · simp only [hc, and_false, if_false]
    exact List.foldl_fixed _

/-- A loop over the columns that changes one column each time. -/
theorem acrossColumns {step : Array α → Nat → Option (Array α)} {f : Nat → Nat → α → α}
    (h : ∀ j < columns, Acts rows columns place (step · j)
      fun r c x => if c = j then f r c x else x) :
    Acts rows columns place ((List.range columns).foldlM step) f := by
  refine (foldlM (List.range columns) fun j hj => h j (List.mem_range.mp hj)).congr ?_
  intro r c x _ hc
  exact foldl_range_if_eq hc (f r c) x

end Acts

theorem foldlM_columnwise {σ : Type} (m n : Nat) (f : σ → Nat × Nat → Option σ) (s : σ) :
    (columnwise m n).foldlM f s =
      (List.range n).foldlM (fun s c => (List.range m).foldlM (fun s r => f s (r, c)) s) s := by
  rw [columnwise]
  generalize List.range n = cs
  induction cs generalizing s with
  | nil => rfl
  | cons c cs ih =>
    rw [List.flatMap_cons, List.foldlM_append, List.foldlM_cons, List.foldlM_map]
    congr 1
    funext t
    exact ih t

/-- A loop over all positions that changes one element each time. -/
theorem Acts.everywhere {step : Array α → Nat × Nat → Option (Array α)} {f : Nat → Nat → α → α}
    (h : ∀ i < rows, ∀ j < columns, Acts rows columns place (step · (i, j))
      fun r c x => if r = i ∧ c = j then f r c x else x) :
    Acts rows columns place ((columnwise rows columns).foldlM step) f := by
  have hLoop : Acts rows columns place ((List.range columns).foldlM fun data j =>
      (List.range rows).foldlM (fun data i => step data (i, j)) data) f :=
    acrossColumns fun j hj => downColumn fun i hi => h i hi j hj
  simpa only [foldlM_columnwise] using hLoop

end Loops

/-- A matrix with the storage and the shape of another. -/
structure Framed (C D : Mat α) : Prop where
  storage : D.storage = C.storage
  rows : D.rows = C.rows
  columns : D.columns = C.columns

namespace Framed
variable {C D E : Mat α}

theorem refl (C : Mat α) : Framed C C := ⟨rfl, rfl, rfl⟩

theorem trans (h : Framed C D) (h' : Framed D E) : Framed C E :=
  ⟨h'.storage.trans h.storage, h'.rows.trans h.rows, h'.columns.trans h.columns⟩

theorem shape (h : Framed C D) : D.shape = C.shape := by
  rw [Mat.shape, Mat.shape, h.rows, h.columns]

theorem offset (h : Framed C D) : D.offset = C.offset := by
  funext r c
  rw [Mat.offset, Mat.offset, h.storage, h.rows, h.columns]

theorem foldl {ι : Type} {step : Mat α → ι → Mat α} (h : ∀ C q, Framed C (step C q)) (qs : List ι)
    (C : Mat α) : Framed C (qs.foldl step C) := by
  induction qs generalizing C with
  | nil => exact refl C
  | cons q qs ih => exact (h C q).trans (ih (step C q))

end Framed

variable [Zero α]

/-- Such a matrix in which every entry is revised by a function of its position and old value. -/
structure Revised (f : Nat → Nat → α → α) (C D : Mat α) : Prop extends Framed C D where
  entry : ∀ r c, r < C.rows → c < C.columns → D.entry r c = f r c (C.entry r c)

omit [Zero α] in
theorem framed_put (C : Mat α) (r c : Nat) (x : α) : Framed C (C.put r c x) := ⟨rfl, rfl, rfl⟩

theorem revised_of_acts {f : Nat → Nat → α → α} {C D : Mat α} (hFrame : Framed C D)
    {kernel : Array α → Option (Array α)} (h : Acts C.rows C.columns C.offset kernel f)
    (hData : kernel C.data = some D.data) : Revised f C D := by
  refine ⟨hFrame, fun r c hr hc => ?_⟩
  obtain ⟨next, hNext, -, hPlaces⟩ := h C.data C.size_eq
  obtain rfl := Option.some.inj (hData.symm.trans hNext)
  have hEntry := hPlaces r c _ hr hc (C.getElem?_offset hr hc)
  rw [← hFrame.offset, D.getElem?_offset (hFrame.rows ▸ hr) (hFrame.columns ▸ hc)] at hEntry
  exact Option.some.inj hEntry

theorem revised_mapBlock (f : α → α) (C : Mat α) : Revised (fun _ _ x => f x) C (C.mapBlock f) :=
  revised_of_acts ⟨rfl, rfl, rfl⟩ (acts_map f) rfl

theorem Revised.congr {f g : Nat → Nat → α → α} {C D : Mat α} (h : Revised f C D)
    (hChange : ∀ r c x, r < C.rows → c < C.columns → f r c x = g r c x) : Revised g C D :=
  ⟨h.toFramed, fun r c hr hc => (h.entry r c hr hc).trans (hChange r c _ hr hc)⟩

theorem modifyAt_eq_put (C : Mat α) {r c : Nat} (hr : r < C.rows) (hc : c < C.columns)
    (f : α → α) :
    modifyAt C.data (C.offset r c) f = some (C.put r c (f (C.entry r c))).data := by
  have hLt : C.offset r c < C.data.size := by
    rw [C.size_eq]
    exact C.placement_offset.lt hr hc
  simp only [modifyAt, C.getElem?_offset hr hc]
  exact if_pos hLt

theorem foldlM_modifyAt_eq_put (f : Nat → Nat → α → α) (qs : List (Nat × Nat)) (C : Mat α)
    (h : ∀ q ∈ qs, q.1 < C.rows ∧ q.2 < C.columns) :
    qs.foldlM (fun data q => modifyAt data (C.offset q.1 q.2) (f q.1 q.2)) C.data =
      some (qs.foldl (fun C q => C.put q.1 q.2 (f q.1 q.2 (C.entry q.1 q.2))) C).data := by
  induction qs generalizing C with
  | nil => rfl
  | cons q qs ih =>
    obtain ⟨hr, hc⟩ := h q List.mem_cons_self
    rw [List.foldlM_cons, C.modifyAt_eq_put hr hc]
    exact ih (C.put q.1 q.2 _) fun p hp => h p (List.mem_cons_of_mem q hp)

omit [Zero α] in
theorem mem_columnwise {m n r c : Nat} : (r, c) ∈ columnwise m n ↔ r < m ∧ c < n := by
  simp [columnwise, and_comm]

/-- A loop that writes every position once, from the entry that is there. -/
theorem revised_foldl_put (f : Nat → Nat → α → α) (C : Mat α) :
    Revised f C ((columnwise C.rows C.columns).foldl
      (fun C q => C.put q.1 q.2 (f q.1 q.2 (C.entry q.1 q.2))) C) := by
  have hActs : Acts C.rows C.columns C.offset ((columnwise C.rows C.columns).foldlM
      fun data q => modifyAt data (C.offset q.1 q.2) (f q.1 q.2)) f :=
    .everywhere fun i hi j hj => (acts_modifyAt C.placement_offset hi hj (f i j)).congr
      fun r c x _ _ => by
        split
        · rename_i hHere
          rw [hHere.1, hHere.2]
        · rfl
  refine revised_of_acts (.foldl (fun C q => C.framed_put _ _ _) _ C) hActs ?_
  exact foldlM_modifyAt_eq_put f _ C fun q hq => mem_columnwise.mp hq

theorem revised_cleared (C : Mat α) : Revised (fun _ _ _ => 0) C C.cleared := by
  rw [cleared]
  split
  · exact revised_mapBlock _ C
  · exact revised_foldl_put (fun _ _ _ => 0) C

end Almanac.Mat
