import Almanac.Proofs.Edit
import Almanac.Vec.Norm
import Almanac.Vec.Transfer

/-! # Entries of vectors

What each way to write a vector leaves at every position: loops of single writes, and operations on
the whole block. A new vector is answered if the machine has room for it.
-/
namespace Almanac.Vec
set_option autoImplicit false
open Linear

variable {α : Type}

/-- Vectors with the same elements, however they are stored. -/
def Alike (v w : Vec α) : Prop := v.entries = w.entries

namespace Alike
variable {u v w : Vec α}

theorem refl (v : Vec α) : v.Alike v := rfl

theorem trans (h : u.Alike v) (h' : v.Alike w) : u.Alike w := Eq.trans h h'

theorem count (h : v.Alike w) : v.count = w.count := congrArg Array.size h

theorem eq (h : v.Alike w) (hStorage : v.storage = w.storage) : v = w := by
  obtain ⟨_, _, _⟩ := v
  obtain ⟨_, _, _⟩ := w
  cases h
  cases hStorage
  rfl

end Alike

section Count

@[simp] theorem count_put (v : Vec α) (i : Nat) (x : α) : (v.put i x).count = v.count :=
  Array.size_setIfInBounds

@[simp] theorem count_foldl_put (v : Vec α) {β : Type} (place : β → Nat) (f : Vec α → β → α)
    (qs : List β) : (qs.foldl (fun w q => w.put (place q) (f w q)) v).count = v.count := by
  induction qs generalizing v with
  | nil => rfl
  | cons q qs ih => rw [List.foldl_cons, ih, count_put]

@[simp] theorem count_writeFrom (v : Vec α) (start length : Nat) (f : Nat → α) :
    (v.writeFrom start length f).count = v.count := count_foldl_put v _ _ _

@[simp] theorem count_sweep (v : Vec α) (f : Vec α → Nat → α) : (v.sweep f).count = v.count :=
  count_foldl_put v _ _ _

@[simp] theorem count_mapBlock (v : Vec α) (f : α → α) : (v.mapBlock f).count = v.count :=
  Array.size_map ..

theorem count_zipBlock {v other : Vec α} {op : α → α → α} (h : v.count = other.count) :
    (v.zipBlock op other).count = v.count := by
  rw [count, zipBlock, Array.size_zipWith]
  exact Nat.min_eq_left (Nat.le_of_eq h)

@[simp] theorem count_spliceBlock (v : Vec α) (start : Nat) (part : Array α) :
    (v.spliceBlock start part).count = v.count := by
  rw [spliceBlock]
  split
  · simp only [count, Array.size_append, Array.size_extract]
    omega
  · rfl

@[simp] theorem count_fill {n : Nat} {h : 0 < n} {x : α} : (fill n h x).count = n :=
  Array.size_replicate

end Count

section Allocation
variable {v w : Vec α}

/-- A new vector, if the machine has room for it. -/
def allocated (v : Vec α) : Checked (Vec α) := do
  checkAllocation v.count
  return v

theorem allocated_eq (v : Vec α) :
    v.allocated = if v.count < bufferBound then .ok v else fault := by
  rw [allocated, checkAllocation]
  split <;> rfl

theorem allocated_of_lt (h : v.count < bufferBound) : v.allocated = .ok v := by
  rw [allocated_eq, if_pos h]

theorem bind_allocated {next : Vec α → Checked (Vec α)} (hCount : w.count = v.count)
    (hNext : next v = .ok w) : v.allocated >>= next = w.allocated := by
  rw [allocated_eq, allocated_eq, hCount]
  split
  · exact hNext
  · rfl

theorem zeros?_eq [Zero α] {n : Nat} (h : 0 < n) :
    (zeros? n : Checked (Vec α)) = (fill n h 0).allocated := by
  rw [allocated, count_fill]
  exact dif_pos h

end Allocation

section Storage
variable (v : Vec α)

theorem storage_writeFrom (start length : Nat) (f : Nat → α) :
    (v.writeFrom start length f).storage = v.storage := by
  rw [writeFrom]
  generalize List.range length = is
  induction is generalizing v with
  | nil => rfl
  | cons i is ih => exact ih (v.put (start + i) (f i))

theorem storage_spliceBlock (start : Nat) (part : Array α) :
    (v.spliceBlock start part).storage = v.storage := by
  rw [spliceBlock]
  split <;> rfl

end Storage

/-- A block with the part from `start` on replaced. -/
theorem getElem?_splice (data part : Array α) {start : Nat}
    (h : start + part.size ≤ data.size) (j : Nat) :
    (data.extract 0 start ++ part ++ data.extract (start + part.size) data.size)[j]? =
      if start ≤ j ∧ j < start + part.size then part[j - start]? else data[j]? := by
  have hBefore : (data.extract 0 start).size = start := by
    rw [Array.size_extract]
    omega
  have hUpTo : (data.extract 0 start ++ part).size = start + part.size := by
    rw [Array.size_append, hBefore]
  by_cases hPart : j < start + part.size
  · rw [Array.getElem?_append_left (hUpTo.symm ▸ hPart)]
    by_cases hStart : start ≤ j
    · rw [if_pos ⟨hStart, hPart⟩, Array.getElem?_append_right (hBefore.symm ▸ hStart), hBefore]
    · have hLt : j < start := Nat.lt_of_not_le hStart
      rw [if_neg (by omega), Array.getElem?_append_left (hBefore.symm ▸ hLt),
        Array.getElem?_extract, if_pos (by omega), Nat.zero_add]
  · rw [if_neg (by omega), Array.getElem?_append_right (by omega), hUpTo, Array.getElem?_extract]
    by_cases hEnd : j < data.size
    · rw [if_pos (by omega)]
      congr 1
      omega
    · rw [if_neg (by omega), Array.getElem?_eq_none (by omega)]

variable [Zero α]

section Read
variable {v w : Vec α}

theorem Alike.entry (h : v.Alike w) (i : Nat) : v.entry i = w.entry i := by
  rw [Vec.entry, Vec.entry, h]

theorem Alike.elements (h : v.Alike w) : v.elements = w.elements := by
  rw [Vec.elements, Vec.elements, h.count]
  exact List.map_congr_left fun i _ => h.entry i

theorem getElem?_entries {i : Nat} (hi : i < v.count) : v.entries[i]? = some (v.entry i) := by
  rw [entry, Array.getD_eq_getD_getElem?, Array.getElem?_eq_getElem hi]
  rfl

theorem entry_of_getElem? {i : Nat} {x : α} (h : v.entries[i]? = some x) : v.entry i = x := by
  rw [entry, Array.getD_eq_getD_getElem?, h]
  rfl

theorem alike_of_entry (hCount : v.count = w.count)
    (h : ∀ i < v.count, v.entry i = w.entry i) : v.Alike w := by
  apply Array.ext_getElem?
  intro i
  by_cases hi : i < v.count
  · rw [getElem?_entries hi, getElem?_entries (hCount ▸ hi), h i hi]
  · have hi' : ¬i < w.count := hCount ▸ hi
    rw [Array.getElem?_eq_none (Nat.le_of_not_lt hi), Array.getElem?_eq_none (Nat.le_of_not_lt hi')]

theorem toList_entries (v : Vec α) : v.entries.toList = v.elements := by
  apply List.ext_getElem?
  intro i
  rw [elements, List.getElem?_map, Array.getElem?_toList]
  by_cases hi : i < v.count
  · rw [List.getElem?_range hi, getElem?_entries hi]
    rfl
  · rw [List.getElem?_eq_none (by simpa using hi), Array.getElem?_eq_none (Nat.le_of_not_lt hi)]
    rfl

end Read

section Window
variable {data : Array α} {start length : Nat}

theorem getElem?_window (h : start + length ≤ data.size) (i : Nat) :
    (data.extract start (start + length))[i]? =
      if i < length then some (data.getD (start + i) 0) else none := by
  rw [Array.getElem?_extract]
  by_cases hi : i < length
  · rw [if_pos (by omega), if_pos hi, Array.getD_eq_getD_getElem?,
      Array.getElem?_eq_getElem (by omega)]
    rfl
  · rw [if_neg (by omega), if_neg hi]

theorem toList_window (h : start + length ≤ data.size) :
    (data.extract start (start + length)).toList =
      (List.range length).map fun i => data.getD (start + i) 0 := by
  apply List.ext_getElem?
  intro i
  rw [Array.getElem?_toList, getElem?_window h, List.getElem?_map]
  split
  · rename_i hi
    rw [List.getElem?_range hi]
    rfl
  · rename_i hi
    rw [List.getElem?_eq_none (by simpa using hi)]
    rfl

omit [Zero α] in
theorem size_window (h : start + length ≤ data.size) :
    (data.extract start (start + length)).size = length := by
  rw [Array.size_extract]
  omega

end Window

/-- A vector with every element of another revised by a function of its position and value. -/
structure Revised (f : Nat → α → α) (v w : Vec α) : Prop where
  count : w.count = v.count
  entry : ∀ i < v.count, w.entry i = f i (v.entry i)

/-- The same revision of the same elements. -/
theorem Revised.alike {f g : Nat → α → α} {v v' w w' : Vec α} (h : Revised f v w)
    (h' : Revised g v' w') (hStart : v.Alike v')
    (hSame : ∀ i < v.count, f i (v.entry i) = g i (v.entry i)) : w.Alike w' := by
  apply alike_of_entry (h.count.trans (hStart.count.trans h'.count.symm))
  intro i hi
  rw [h.count] at hi
  rw [h.entry i hi, h'.entry i (hStart.count ▸ hi), hSame i hi, hStart.entry i]

section Write
variable (v : Vec α)

theorem entry_put {i j : Nat} (hj : j < v.count) (x : α) :
    (v.put i x).entry j = if j = i then x else v.entry j := by
  apply entry_of_getElem?
  rw [put, Array.getElem?_setIfInBounds]
  by_cases hHere : j = i
  · subst hHere
    simp only [if_true]
    exact if_pos hj
  · rw [if_neg (Ne.symm hHere), if_neg hHere, getElem?_entries hj]

theorem revised_writeFrom (start length : Nat) (f : Nat → α) :
    Revised (fun i x => if start ≤ i ∧ i < start + length then f (i - start) else x) v
      (v.writeFrom start length f) := by
  refine ⟨count_writeFrom v start length f, fun i hi => ?_⟩
  induction length with
  | zero =>
    rw [if_neg (by omega)]
    rfl
  | succ n ih =>
    have hLast : v.writeFrom start (n + 1) f = (v.writeFrom start n f).put (start + n) (f n) := by
      simp [writeFrom, List.range_succ]
    rw [hLast, entry_put _ (by rwa [count_writeFrom]), ih]
    by_cases hHere : i = start + n
    · rw [if_pos hHere, if_pos (by omega), hHere, Nat.add_sub_cancel_left]
    · rw [if_neg hHere]
      congr 1
      simp only [eq_iff_iff]
      omega

theorem entry_writeFrom_of_lt {n i : Nat} (f : Nat → α) (hi : i < v.count) (hn : i < n) :
    (v.writeFrom 0 n f).entry i = f i := by
  rw [(revised_writeFrom v 0 n f).entry i hi, if_pos (by omega)]
  rfl

/-- A sweep that reads only the element that it is about to write. -/
theorem revised_sweep (f : Nat → α → α) : Revised f v (v.sweep fun w i => f i (w.entry i)) := by
  -- The part of the sweep up to `n` has revised the elements before `n` and left the others.
  have hPart : ∀ n i, i < v.count →
      ((List.range n).foldl (fun w i => w.put i (f i (w.entry i))) v).entry i =
        if i < n then f i (v.entry i) else v.entry i := by
    intro n
    induction n with
    | zero => exact fun _ _ => rfl
    | succ n ih =>
      intro i hi
      rw [List.range_succ, List.foldl_append, List.foldl_cons, List.foldl_nil,
        entry_put _ (by rwa [count_foldl_put v (fun i => i)]), ih i hi]
      by_cases hHere : i = n
      · subst hHere
        rw [if_pos rfl, if_pos (Nat.lt_succ_self i), ih i hi, if_neg (Nat.lt_irrefl i)]
      · rw [if_neg hHere]
        congr 1
        simp only [eq_iff_iff]
        omega
  refine ⟨count_sweep v _, fun i hi => ?_⟩
  rw [sweep, hPart v.count i hi, if_pos hi]

end Write

section Block

theorem revised_mapBlock (v : Vec α) (f : α → α) : Revised (fun _ x => f x) v (v.mapBlock f) := by
  refine ⟨count_mapBlock v f, fun i hi => ?_⟩
  apply entry_of_getElem?
  rw [mapBlock, Array.getElem?_map, getElem?_entries hi]
  rfl

theorem revised_mapEntries (v : Vec α) (f : α → α) :
    Revised (fun _ => f) v (v.mapEntries f) := by
  rw [mapEntries]
  split
  · exact revised_mapBlock v f
  · exact revised_sweep v fun _ => f

variable {v other : Vec α}

theorem revised_zipBlock (op : α → α → α) (h : v.count = other.count) :
    Revised (fun i x => op x (other.entry i)) v (v.zipBlock op other) := by
  refine ⟨count_zipBlock h, fun i hi => ?_⟩
  apply entry_of_getElem?
  rw [zipBlock, Array.getElem?_zipWith, getElem?_entries hi, getElem?_entries (h ▸ hi)]

theorem revised_withBlock (h : other.count = v.count) :
    Revised (fun i _ => other.entry i) v (v.withBlock other) := ⟨h, fun _ _ => rfl⟩

theorem revised_spliceBlock {start : Nat} {part : Array α} (h : start + part.size ≤ v.count) :
    Revised (fun i x => if start ≤ i ∧ i < start + part.size then part.getD (i - start) 0 else x) v
      (v.spliceBlock start part) := by
  refine ⟨count_spliceBlock v start part, fun i hi => ?_⟩
  apply entry_of_getElem?
  rw [spliceBlock]
  split
  · rename_i hFits
    rw [getElem?_splice v.entries part hFits]
    split
    · rename_i hPart
      rw [Array.getD_eq_getD_getElem?, Array.getElem?_eq_getElem (by omega)]
      rfl
    · exact getElem?_entries hi
  · rename_i hNot
    exact absurd h hNot

end Block
end Almanac.Vec
