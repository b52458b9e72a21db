import Mathlib.Data.List.Induction
import Almanac.Vec.Cursor

/-! # Walks over a vector from both ends

The calls on a cursor hand out the elements in order on each side, until the two sides meet. Each
call up to the number of the elements has an item and each later call has none, whichever way the
sides alternate.
-/
namespace Almanac.Vec.Cursor
set_option autoImplicit false

variable {α : Type} [Zero α]

/-- The cursor that a walk leaves. -/
def after (c : Cursor α) (sides : List Side) : Cursor α :=
  sides.foldl (fun c side => (c.take side).2) c

/-- What a walk hands out on one side, in order. -/
def served (c : Cursor α) (side : Side) (sides : List Side) : List α :=
  (sides.zip (c.walk sides)).filterMap fun call => if call.1 = side then call.2.1 else none

/-- The position of the element that has `k` others between it and a side. -/
def placeFrom (n : Nat) : Side → Nat → Nat
  | .front, k => k
  | .back, k => n - 1 - k

/-- The elements of a vector from a side on, one after the other. -/
def InOrder (v : Vec α) (side : Side) (items : List α) : Prop :=
  items = (List.range items.length).map fun k => v.entry (placeFrom v.count side k)

/-- Each side was given elements in order, and the cursor stands between them. -/
structure Between (v : Vec α) (given : Side → List α) (c : Cursor α) : Prop where
  source : c.source = v
  front : c.front = (given .front).length
  back : c.back + (given .back).length = v.count
  meet : c.front ≤ c.back
  inOrder : ∀ side, InOrder v side (given side)

section Step
variable {c : Cursor α}

theorem take_of_le (h : c.back ≤ c.front) (side : Side) : c.take side = (none, c) := by
  cases side with
  | front => exact if_pos h
  | back => exact if_pos h

theorem take_front_of_lt (h : c.front < c.back) :
    c.take .front = (some (c.source.entry c.front), { c with front := c.front + 1 }) :=
  if_neg (Nat.not_le.mpr h)

theorem take_back_of_lt (h : c.front < c.back) :
    c.take .back = (some (c.source.entry (c.back - 1)), { c with back := c.back - 1 }) :=
  if_neg (Nat.not_le.mpr h)

theorem isSome_take_iff (c : Cursor α) (side : Side) :
    (c.take side).1.isSome ↔ c.front < c.back := by
  obtain hLeft | hEnd := Nat.lt_or_ge c.front c.back
  · cases side with
    | front =>
      rw [take_front_of_lt hLeft]
      exact iff_of_true rfl hLeft
    | back =>
      rw [take_back_of_lt hLeft]
      exact iff_of_true rfl hLeft
  · rw [take_of_le hEnd]
    exact iff_of_false Bool.false_ne_true (Nat.not_lt.mpr hEnd)

variable {v : Vec α} {given : Side → List α}

theorem InOrder.concat {side : Side} {items : List α} (h : InOrder v side items) :
    InOrder v side (items ++ [v.entry (placeFrom v.count side items.length)]) := by
  rw [InOrder, List.length_append, List.length_singleton, List.range_succ, List.map_append, ← h]
  rfl

theorem Between.take (h : Between v given c) (last : Side) :
    Between v (fun side => given side ++ if last = side then (c.take last).1.toList else [])
      (c.take last).2 := by
  obtain ⟨rfl, hFront, hBack, hMeet, hOrder⟩ := h
  obtain hLeft | hEnd := Nat.lt_or_ge c.front c.back
  · cases last with
    | front =>
      rw [take_front_of_lt hLeft]
      constructor
      case source => rfl
      case front => simp [hFront]
      case back => simpa using hBack
      case meet => exact hLeft
      case inOrder =>
        rintro (_ | _)
        · rw [hFront]
          exact (hOrder .front).concat
        · simpa using hOrder .back
    | back =>
      have hPlace : c.back - 1 = placeFrom c.source.count .back (given .back).length := by
        rw [placeFrom]
        omega
      rw [take_back_of_lt hLeft]
      constructor
      case source => rfl
      case front => simpa using hFront
      case back =>
        simp only [if_true, Option.toList_some, List.length_append, List.length_singleton]
        omega
      case meet => exact Nat.le_sub_one_of_lt hLeft
      case inOrder =>
        rintro (_ | _)
        · simpa using hOrder .front
        · rw [hPlace]
          exact (hOrder .back).concat
  · rw [take_of_le hEnd]
    simp only [Option.toList_none, ite_self, List.append_nil]
    exact ⟨rfl, hFront, hBack, hMeet, hOrder⟩

end Step

section Walk
variable (c : Cursor α) (sides : List Side)

theorem after_concat (last : Side) :
    c.after (sides ++ [last]) = ((c.after sides).take last).2 := by
  rw [after, List.foldl_append]
  rfl

theorem length_walk : (c.walk sides).length = sides.length := by
  induction sides generalizing c with
  | nil => rfl
  | cons side sides ih => exact congrArg (· + 1) (ih _)

theorem walk_concat (last : Side) : c.walk (sides ++ [last]) =
    c.walk sides ++ [(((c.after sides).take last).1, (c.after (sides ++ [last])).remaining)] := by
  induction sides generalizing c with
  | nil => rfl
  | cons side sides ih => exact congrArg (_ :: ·) (ih _)

theorem take_walk (i : Nat) : (c.walk sides).take i = c.walk (sides.take i) := by
  induction sides generalizing c i with
  | nil => simp [walk]
  | cons side sides ih =>
    cases i with
    | zero => rfl
    | succ i => exact congrArg (_ :: ·) (ih _ i)

theorem getElem?_walk (i : Nat) : (c.walk sides)[i]? = sides[i]?.map fun side =>
    (((c.after (sides.take i)).take side).1, ((c.after (sides.take i)).take side).2.remaining) := by
  induction sides generalizing c i with
  | nil => rfl
  | cons side sides ih =>
    cases i with
    | zero => rfl
    | succ i => exact ih _ i

theorem served_concat (side last : Side) : c.served side (sides ++ [last]) =
    c.served side sides ++ if last = side then ((c.after sides).take last).1.toList else [] := by
  rw [served, walk_concat, List.zip_append (length_walk c sides).symm, List.filterMap_append]
  congr 1
  split
  · rename_i hSide
    cases ((c.after sides).take last).1 <;> simp [hSide]
  · rename_i hOther
    simp [hOther]

/-- Every item is handed out on one of the sides. -/
theorem length_served : (c.served .front sides).length + (c.served .back sides).length =
    (c.walk sides).countP (·.1.isSome) := by
  induction sides using List.reverseRecOn with
  | nil => rfl
  | append_singleton sides last ih =>
    rw [served_concat, served_concat, walk_concat, List.countP_append, ← ih]
    cases ((c.after sides).take last).1 <;> cases last <;> simp <;> omega

end Walk

section Fresh
variable (v : Vec α) (sides : List Side)

theorem between_cursor : Between v (fun _ => []) v.cursor :=
  ⟨rfl, rfl, rfl, Nat.zero_le _, fun _ => rfl⟩

/-- A walk from a fresh cursor ends between what it has handed out. -/
theorem between_after : Between v (v.cursor.served · sides) (v.cursor.after sides) := by
  induction sides using List.reverseRecOn with
  | nil => exact between_cursor v
  | append_singleton sides last ih =>
    simp only [served_concat, after_concat]
    exact ih.take last

theorem remaining_after : (v.cursor.after sides).remaining +
    (v.cursor.walk sides).countP (·.1.isSome) = v.count := by
  obtain ⟨-, hFront, hBack, hMeet, -⟩ := between_after v sides
  rw [← length_served, remaining]
  omega

theorem countP_walk : (v.cursor.walk sides).countP (·.1.isSome) = min sides.length v.count := by
  induction sides using List.reverseRecOn with
  | nil => simp [walk]
  | append_singleton sides last ih =>
    have hLeft := remaining_after v sides
    have hItem := isSome_take_iff (v.cursor.after sides) last
    rw [ih, remaining] at hLeft
    rw [walk_concat, List.countP_append, List.countP_singleton, ih, List.length_append,
      List.length_singleton]
    split
    · rename_i hSome
      have hLess := hItem.mp hSome
      omega
    · rename_i hNone
      have hEnd := mt hItem.mpr hNone
      omega

/-- The next call has an item exactly if fewer calls were made than there are elements. -/
theorem isSome_take_after_iff (side : Side) :
    ((v.cursor.after sides).take side).1.isSome ↔ sides.length < v.count := by
  have hLeft := remaining_after v sides
  rw [countP_walk, remaining] at hLeft
  rw [isSome_take_iff]
  omega

theorem placeFrom_served {side side' : Side} {k k' : Nat}
    (hk : k < (v.cursor.served side sides).length)
    (hk' : k' < (v.cursor.served side' sides).length) :
    placeFrom v.count side k < v.count ∧
      (placeFrom v.count side k = placeFrom v.count side' k' → side = side' ∧ k = k') := by
  obtain ⟨-, hFront, hBack, hMeet, -⟩ := between_after v sides
  cases side <;> cases side' <;> simp only [placeFrom, true_and, reduceCtorEq, false_and] <;> omega

theorem report_of_getElem? {i left : Nat} {item : Option α}
    (h : (v.cursor.walk sides)[i]? = some (item, left)) :
    left + ((v.cursor.walk sides).take (i + 1)).countP (·.1.isSome) = v.count ∧
      (item.isSome ↔ i < v.count) := by
  rw [getElem?_walk] at h
  obtain ⟨side, hSide, hCall⟩ := Option.map_eq_some_iff.mp h
  obtain ⟨hi, rfl⟩ := List.getElem?_eq_some_iff.mp hSide
  obtain ⟨rfl, rfl⟩ := Prod.mk.inj hCall
  constructor
  · rw [take_walk, ← after_concat, ← List.take_succ_eq_append_getElem hi]
    exact remaining_after v _
  · rw [isSome_take_after_iff, List.length_take_of_le (Nat.le_of_lt hi)]

end Fresh

/-- However a walk alternates between the sides of a vector, each side hands out its elements in
order from its end, and no two items come from one position. The positions never cross, and what is
left is what was not handed out. A call has an item exactly if an element is left for it, so that
after a call without an item no call has one. -/
theorem walk_hands_out_each_element_once (v : Vec α) (sides : List Side) :
    let given := fun side => v.cursor.served side sides
    let calls := v.cursor.walk sides
    let last := v.cursor.after sides
    (∀ side, given side =
      (List.range (given side).length).map fun k => v.entry (placeFrom v.count side k)) ∧
    (∀ side side' k k', k < (given side).length → k' < (given side').length →
      placeFrom v.count side k < v.count ∧
        (placeFrom v.count side k = placeFrom v.count side' k' → side = side' ∧ k = k')) ∧
    (last.front ≤ last.back ∧
      last.remaining + ((given .front).length + (given .back).length) = v.count) ∧
    (calls.length = sides.length ∧ ∀ i item left, calls[i]? = some (item, left) →
      left + (calls.take (i + 1)).countP (·.1.isSome) = v.count ∧ (item.isSome ↔ i < v.count)) ∧
    ∀ (i j : Nat) item left left', i ≤ j → calls[i]? = some (none, left) →
      calls[j]? = some (item, left') → item = none := by
  intro given calls last
  have hBetween := between_after v sides
  have hItems := length_served v.cursor sides
  refine ⟨hBetween.inOrder, fun _ _ _ _ => placeFrom_served v sides, ⟨hBetween.meet, ?_⟩,
    ⟨length_walk v.cursor sides, fun _ _ _ => report_of_getElem? v sides⟩, ?_⟩
  · rw [hItems]
    exact remaining_after v sides
  · intro i j item left left' hLater hFirst hSecond
    have hNone : ¬ i < v.count := mt (report_of_getElem? v sides hFirst).2.mpr Bool.false_ne_true
    rw [← Option.not_isSome_iff_eq_none, (report_of_getElem? v sides hSecond).2]
    exact fun hLeft => hNone (Nat.lt_of_le_of_lt hLater hLeft)

/-- Five calls on three scattered elements: the middle one is the last for both sides. -/
theorem walk_of_three_elements :
    let v := (Vec.ofList [1, 2, (1 : Float)] (by decide)).scatter
    let calls := v.cursor.walk [.front, .back, .back, .front, .back]
    calls = [(some 1, 2), (some 1, 1), (some 2, 0), (none, 0), (none, 0)] ∧
      placeFrom v.count .front 0 ≠ placeFrom v.count .back 0 ∧
      calls[2]? = some (some 2, 0) ∧ 0 + (calls.take 3).countP (·.1.isSome) = v.count ∧
      ∀ item left, calls[4]? = some (item, left) → item = none := by
  intro v calls
  obtain ⟨-, hPlaces, -, ⟨-, hReport⟩, hEnd⟩ :=
    walk_hands_out_each_element_once v [.front, .back, .back, .front, .back]
  have hCalls : calls = [(some 1, 2), (some 1, 1), (some 2, 0), (none, 0), (none, 0)] := by
    decide +kernel
  refine ⟨hCalls, fun hSame => ?_, by rw [hCalls]; rfl, (hReport 2 (some 2) 0 ?_).1,
    fun item left => hEnd 3 4 item 0 left (by decide) ?_⟩
  · have hSides := (hPlaces .front .back 0 0 (by decide +kernel) (by decide +kernel)).2 hSame
    exact absurd hSides.1 (by decide)
  · exact congrArg (·[2]?) hCalls
  · exact congrArg (·[3]?) hCalls

end Almanac.Vec.Cursor
