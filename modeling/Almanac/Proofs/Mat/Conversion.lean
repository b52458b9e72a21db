import Almanac.Proofs.Mat.Layout

/-! # Conversions of matrices

A matrix of any storage is built again from each of the forms that it gives out, and what a matrix
is built from is given out again. Rows are taken exactly when there is one and all are of one length
that is not zero; otherwise the first row that differs from the one on top is named.

Main statement: `conversions_invert_each_other`.
-/
namespace Almanac.Mat
set_option autoImplicit false
open Linear

variable {α : Type}

section Positions
variable {m n i : Nat}

theorem columnwise_place (hi : i < m * n) :
    ∃ p, (columnwise m n)[i]? = some p ∧ p.2 * m + p.1 = i := by
  rw [getElem?_columnwise, if_pos hi]
  exact ⟨_, rfl, Nat.div_add_mod' i m⟩

theorem rowwise_place (hi : i < m * n) :
    ∃ p, (rowwise m n)[i]? = some p ∧ p.1 * n + p.2 = i := by
  rw [rowwise_eq, List.getElem?_map, getElem?_columnwise, if_pos (by rwa [Nat.mul_comm])]
  exact ⟨_, rfl, Nat.div_add_mod' i n⟩

theorem mem_rowwise {r c : Nat} : (r, c) ∈ rowwise m n ↔ r < m ∧ c < n := by
  simp [rowwise_eq, mem_columnwise, and_comm]

variable [Zero α]

/-- A list is read off again from a matrix in which each of its elements has its place. -/
theorem HasLayout.map_positions {place : Nat → Nat → Nat} {data : List α} {A : Mat α}
    {positions : List (Nat × Nat)} (h : HasLayout place m n data A)
    (hMem : ∀ p ∈ positions, p.1 < m ∧ p.2 < n) (hLength : positions.length = data.length)
    (hPlace : ∀ i < data.length, ∃ p, positions[i]? = some p ∧ place p.1 p.2 = i) :
    positions.map (fun p => A.entry p.1 p.2) = data := by
  apply List.ext_getElem?
  intro i
  rcases Nat.lt_or_ge i data.length with hi | hi
  · obtain ⟨p, hp, hBack⟩ := hPlace i hi
    obtain ⟨hr, hc⟩ := hMem p (List.mem_of_getElem? hp)
    rw [List.getElem?_map, hp, Option.map_some, ← h.element p.1 p.2 hr hc, hBack]
  · rw [List.getElem?_eq_none (by simpa [hLength] using hi), List.getElem?_eq_none hi]

end Positions

section Rows

/-- The first row of another length than `n`: its position, and its length. -/
def FirstMisfit (n : Nat) (rows : List (List α)) (position found : Nat) : Prop :=
  (∃ row, rows[position]? = some row ∧ row.length = found) ∧ found ≠ n ∧
    ∀ i < position, ∀ row, rows[i]? = some row → row.length = n

variable {n : Nat} {rows : List (List α)}

theorem raggedRow?_eq_none_iff : raggedRow? n rows = none ↔ ∀ row ∈ rows, row.length = n := by
  rw [raggedRow?, Option.map_eq_none_iff, List.find?_eq_none]
  constructor
  · intro h row hRow
    obtain ⟨i, hi⟩ := List.mem_iff_getElem?.mp hRow
    simpa using h (row, i) (List.mk_mem_zipIdx_iff_getElem?.mpr hi)
  · intro h p hp
    simpa using h p.1 (List.mem_of_getElem? (List.mem_zipIdx_iff_getElem?.mp hp))

theorem raggedRow?_eq_some_iff {position found : Nat} :
    raggedRow? n rows = some (position, found) ↔ FirstMisfit n rows position found := by
  rw [raggedRow?, Option.map_eq_some_iff, FirstMisfit]
  constructor
  · rintro ⟨⟨row, i⟩, hFind, hPair⟩
    obtain ⟨rfl, rfl⟩ := Prod.mk.inj hPair
    obtain ⟨hMisfit, j, hj, hRow, hBefore⟩ := List.find?_eq_some_iff_getElem.mp hFind
    rw [List.getElem_zipIdx] at hRow
    obtain ⟨rfl, rfl⟩ := Prod.mk.inj hRow
    simp only [List.length_zipIdx] at hj
    simp only [Nat.zero_add] at *
    refine ⟨⟨_, List.getElem?_eq_getElem hj, rfl⟩, by simpa using hMisfit, fun k hk row hRow => ?_⟩
    have hFits := hBefore k hk
    obtain ⟨hLt, rfl⟩ := List.getElem?_eq_some_iff.mp hRow
    simpa using hFits
  · rintro ⟨⟨row, hRow, rfl⟩, hMisfit, hBefore⟩
    obtain ⟨hLt, rfl⟩ := List.getElem?_eq_some_iff.mp hRow
    refine ⟨(rows[position], position), List.find?_eq_some_iff_getElem.mpr ?_, rfl⟩
    refine ⟨by simpa using hMisfit, position, by simpa using hLt, by simp, fun k hk => ?_⟩
    have hFits := hBefore k hk _ (List.getElem?_eq_getElem (Nat.lt_trans hk hLt))
    simpa using hFits

end Rows

variable [Zero α]

section Acceptance
variable {top : List α} {rest : List (List α)}

/-- The matrix whose rows are the lists. -/
def ofTop (top : List α) (rest : List (List α)) (hTop : 0 < top.length) : Mat α :=
  tabulate (rest.length + 1) top.length (Nat.succ_pos _) hTop fun r c =>
    ((top :: rest).getD r []).getD c 0

theorem ofRows?_cons (hTop : 0 < top.length) :
    ofRows? (top :: rest) = match raggedRow? top.length (top :: rest) with
      | some (position, found) => refuse (.raggedRows position top.length found)
      | none => .ok (ofTop top rest hTop) := dif_pos hTop

theorem toRows_ofTop (hTop : 0 < top.length)
    (hLevel : ∀ row ∈ top :: rest, row.length = top.length) :
    (ofTop top rest hTop).toRows = top :: rest := by
  apply List.ext_getElem
  · simp [toRows, ofTop, tabulate]
  intro r hr hr'
  have hRow := hLevel _ (List.getElem_mem hr')
  apply List.ext_getElem
  · simp [toRows, ofTop, tabulate, hRow]
  intro c hc hc'
  have hEntry : (ofTop top rest hTop).entry r c = ((top :: rest).getD r []).getD c 0 :=
    entry_tabulate hr' (hRow ▸ hc')
  simp only [toRows, List.getElem_map, List.getElem_range, hEntry, List.getD_eq_getElem?_getD,
    List.getElem?_eq_getElem hr', Option.getD_some, List.getElem?_eq_getElem hc']

/-- What becomes of rows: taken, or refused for one of three reasons. -/
structure RowsJudged (rows : List (List α)) : Prop where
  answered_iff : (∃ A, ofRows? rows = .ok A) ↔
    rows ≠ [] ∧ ∃ n, 0 < n ∧ ∀ row ∈ rows, row.length = n
  restored : ∀ A, ofRows? rows = .ok A → A.storage = .dense ∧ A.toRows = rows
  none_refused : ofRows? rows = refuse (.notPositive "rows") ↔ rows = []
  empty_refused : ofRows? rows = refuse (.notPositive "columns") ↔ rows.head? = some []
  ragged_refused : ∀ position expected found,
    ofRows? rows = refuse (.raggedRows position expected found) ↔
      ∃ top, rows.head? = some top ∧ top ≠ [] ∧ expected = top.length ∧
        FirstMisfit top.length rows position found
  no_fault : ofRows? rows ≠ fault

theorem rowsJudged_of_level (hTop : 0 < top.length)
    (hLevel : raggedRow? top.length (top :: rest) = none) : RowsJudged (top :: rest) := by
  have hRun : ofRows? (top :: rest) = .ok (ofTop top rest hTop) := by
    rw [ofRows?_cons hTop, hLevel]
  have hLengths := raggedRow?_eq_none_iff.mp hLevel
  constructor
  case answered_iff => exact iff_of_true ⟨_, hRun⟩ ⟨List.cons_ne_nil _ _, _, hTop, hLengths⟩
  case restored =>
    intro A hA
    obtain rfl := Except.ok.inj (hRun.symm.trans hA)
    exact ⟨rfl, toRows_ofTop hTop hLengths⟩
  case ragged_refused =>
    intro position expected found
    refine iff_of_false (by simp [hRun, refuse]) ?_
    rintro ⟨_, ⟨rfl⟩, -, -, hMisfit⟩
    cases hLevel.symm.trans (raggedRow?_eq_some_iff.mpr hMisfit)
  case none_refused => simp [hRun, refuse]
  case empty_refused => simp [hRun, refuse, List.ne_nil_of_length_pos hTop]
  case no_fault => simp [hRun, fault]

theorem rowsJudged_of_ragged (hTop : 0 < top.length) {position found : Nat}
    (hRagged : raggedRow? top.length (top :: rest) = some (position, found)) :
    RowsJudged (top :: rest) := by
  have hRun : ofRows? (top :: rest) =
      (refuse (.raggedRows position top.length found) : Checked (Mat α)) := by
    rw [ofRows?_cons hTop, hRagged]
  have hMisfit := raggedRow?_eq_some_iff.mp hRagged
  constructor
  case answered_iff =>
    refine iff_of_false (by simp [hRun, refuse]) ?_
    rintro ⟨-, n, -, hSame⟩
    obtain ⟨⟨row, hRow, rfl⟩, hNe, -⟩ := hMisfit
    exact hNe ((hSame row (List.mem_of_getElem? hRow)).trans (hSame top List.mem_cons_self).symm)
  case restored => simp [hRun, refuse]
  case ragged_refused =>
    intro position' expected found'
    rw [hRun]
    constructor
    · rintro ⟨⟩
      exact ⟨top, rfl, List.ne_nil_of_length_pos hTop, rfl, hMisfit⟩
    · rintro ⟨_, ⟨rfl⟩, -, rfl, hMisfit'⟩
      cases hRagged.symm.trans (raggedRow?_eq_some_iff.mpr hMisfit')
      rfl
  case none_refused => simp [hRun, refuse]
  case empty_refused => simp [hRun, refuse, List.ne_nil_of_length_pos hTop]
  case no_fault => simp [hRun, refuse, fault]

theorem rowsJudged : ∀ rows : List (List α), RowsJudged rows
  | [] => by
    have hRun : ofRows? ([] : List (List α)) = refuse (.notPositive "rows") := rfl
    constructor <;> simp [hRun, refuse, fault]
  | [] :: rest => by
    have hRun : ofRows? ([] :: rest) = (refuse (.notPositive "columns") : Checked (Mat α)) := rfl
    constructor <;> simp [hRun, refuse, fault]
  | (x :: xs) :: rest => by
    have hTop : 0 < (x :: xs).length := Nat.succ_pos _
    cases hRagged : raggedRow? (x :: xs).length ((x :: xs) :: rest) with
    | none => exact rowsJudged_of_level hTop hRagged
    | some misfit => exact rowsJudged_of_ragged hTop hRagged

end Acceptance

section Export
variable (A : Mat α)

theorem toDense_eq_tabulate :
    A.toDense = tabulate A.rows A.columns A.rows_pos A.columns_pos A.entry := toDense_eq (.refl A)

theorem toDense_isDense : A.toDense.storage = .dense := by
  rw [toDense_eq_tabulate]
  rfl

theorem length_toRowMajor : A.toRowMajor.length = A.rows * A.columns := by
  rw [toRowMajor, List.length_map, length_rowwise]

variable {A}

theorem getElem?_toColumnMajor {r c : Nat} (hr : r < A.rows) (hc : c < A.columns) :
    A.toColumnMajor[c * A.rows + r]? = some (A.entry r c) := by
  rw [toColumnMajor_eq (.refl A), columnElements, List.getElem?_map,
    getElem?_columnwise_place hr hc]
  rfl

theorem alike_of_toRows {B : Mat α} (h : A.toRows = B.toRows) : A.Alike B := by
  have hRows : A.rows = B.rows := by simpa [toRows] using congrArg List.length h
  have hRow : ∀ r < A.rows, (List.range A.columns).map (A.entry r) =
      (List.range B.columns).map (B.entry r) := by
    intro r hr
    have hAt := congrArg (·[r]?) h
    simp only [toRows, List.getElem?_map, List.getElem?_range hr,
      List.getElem?_range (Nat.lt_of_lt_of_eq hr hRows)] at hAt
    exact Option.some.inj hAt
  have hColumns : A.columns = B.columns := by
    simpa using congrArg List.length (hRow 0 A.rows_pos)
  refine ⟨hRows, hColumns, fun r c hr hc => ?_⟩
  have hAt := congrArg (·[c]?) (hRow r hr)
  simp only [List.getElem?_map, List.getElem?_range hc,
    List.getElem?_range (Nat.lt_of_lt_of_eq hc hColumns)] at hAt
  exact Option.some.inj hAt

theorem ofRows?_toRows : ofRows? A.toRows = .ok A.toDense := by
  have hJudged := rowsJudged A.toRows
  have hRows : A.toRows ≠ [] := List.ne_nil_of_length_pos (by simpa [toRows] using A.rows_pos)
  have hLengths : ∀ row ∈ A.toRows, row.length = A.columns := by simp [toRows]
  obtain ⟨B, hB⟩ := hJudged.answered_iff.mpr ⟨hRows, A.columns, A.columns_pos, hLengths⟩
  obtain ⟨hDense, hSame⟩ := hJudged.restored B hB
  have hAlike : B.Alike A.toDense := (alike_of_toRows hSame).trans (toDense_eq_tabulate A ▸
    ⟨rfl, rfl, fun _ _ hr hc => (entry_tabulate hr hc).symm⟩)
  rw [hB, hAlike.eq hDense A.toDense_isDense]

theorem laidOut_eq_toDense {place : Nat → Nat → Nat} {data : List α}
    (hLength : data.length = A.rows * A.columns) (hWord : A.data.size < wordBound)
    (hElement : ∀ r c, r < A.rows → c < A.columns → data[place r c]? = some (A.entry r c)) :
    laidOut place A.rows A.columns data = .ok A.toDense := by
  rw [laidOut, dif_pos A.rows_pos, dif_pos A.columns_pos, if_pos (A.size_eq ▸ hWord),
    if_pos hLength, toDense_eq_tabulate]
  refine congrArg Except.ok (tabulate_congr rfl rfl fun r c hr hc => ?_)
  rw [List.getD_eq_getElem?_getD, hElement r c hr hc]
  rfl

theorem ofTable?_toTable (hDense : A.storage = .dense) :
    ofTable? A.rows A.columns A.toTable = .ok A := by
  rw [ofTable?, dif_pos A.rows_pos, dif_pos A.columns_pos]
  exact congrArg Except.ok
    (eq_tabulate hDense rfl fun r c _ _ => entry_of_dense hDense r c).symm

variable (A)

/-- Every form that a matrix gives out builds the matrix again, as a block. -/
structure Restored : Prop where
  copy : A.toDense.storage = .dense ∧ A.toDense.Alike A
  rows : ofRows? A.toRows = .ok A.toDense
  rowMajor : A.data.size < wordBound →
    ofRowMajor? A.rows A.columns A.toRowMajor = .ok A.toDense
  columnMajor : A.data.size < wordBound →
    ofColumnMajor? A.rows A.columns A.toColumnMajor = .ok A.toDense
  table : A.storage = .dense → ofTable? A.rows A.columns A.toTable = .ok A

theorem restored : Restored A where
  copy := ⟨A.toDense_isDense, A.alike_toDense⟩
  rows := ofRows?_toRows
  rowMajor hWord := by
    rw [ofRowMajor?_eq]
    exact laidOut_eq_toDense A.length_toRowMajor hWord fun _ _ => getElem?_toRowMajor
  columnMajor hWord := by
    rw [ofColumnMajor?_eq]
    exact laidOut_eq_toDense A.length_toColumnMajor hWord fun _ _ => getElem?_toColumnMajor
  table := ofTable?_toTable

end Export

section Import
variable {m n : Nat}

theorem toRowMajor_of_ofRowMajor? {data : List α} {A : Mat α}
    (h : ofRowMajor? m n data = .ok A) : A.toRowMajor = data := by
  rw [ofRowMajor?_eq] at h
  obtain ⟨-, -, hLength, -⟩ := (judged_laidOut ..).answered_iff.mp ⟨A, h⟩
  have hLayout := hasLayout_of_laidOut (placement_byRows m n) h
  obtain ⟨hRows, hColumns⟩ := Prod.mk.inj hLayout.shape
  rw [toRowMajor, hRows, hColumns]
  apply hLayout.map_positions
  · simp [mem_rowwise]
  · rw [length_rowwise, hLength]
  · exact fun i hi => rowwise_place (hLength ▸ hi)

theorem toColumnMajor_of_ofColumnMajor? {data : List α} {A : Mat α}
    (h : ofColumnMajor? m n data = .ok A) : A.toColumnMajor = data := by
  rw [ofColumnMajor?_eq] at h
  obtain ⟨-, -, hLength, -⟩ := (judged_laidOut ..).answered_iff.mp ⟨A, h⟩
  have hLayout := hasLayout_of_laidOut (placement_byColumns m n) h
  obtain ⟨hRows, hColumns⟩ := Prod.mk.inj hLayout.shape
  rw [toColumnMajor_eq (.refl A), columnElements, hRows, hColumns]
  apply hLayout.map_positions
  · simp [mem_columnwise]
  · rw [length_columnwise, hLength]
  · exact fun i hi => columnwise_place (hLength ▸ hi)

theorem toTable_of_ofTable? {table : Nat → Nat → α} {A : Mat α} (h : ofTable? m n table = .ok A) :
    A.storage = .dense ∧ A.shape = (m, n) ∧ ∀ r c, r < m → c < n → A.toTable r c = table r c := by
  rw [ofTable?] at h
  split at h
  · split at h
    · obtain rfl := Except.ok.inj h
      refine ⟨rfl, rfl, fun r c hr hc => ?_⟩
      rw [toTable, ← entry_of_dense rfl, entry_tabulate hr hc]
    · cases h
  · cases h

variable (m n)

/-- What a matrix is built from is what it gives out. -/
structure GivenOut : Prop where
  rowMajor : ∀ (data : List α) A, ofRowMajor? m n data = .ok A → A.toRowMajor = data
  columnMajor : ∀ (data : List α) A, ofColumnMajor? m n data = .ok A → A.toColumnMajor = data
  table : ∀ (table : Nat → Nat → α) A, ofTable? m n table = .ok A →
    A.storage = .dense ∧ A.shape = (m, n) ∧ ∀ r c, r < m → c < n → A.toTable r c = table r c

end Import

/-- Every conversion and its partner undo each other, for every shape and storage; rows are taken
exactly if there is one and all are of one length that is not zero. -/
theorem conversions_invert_each_other :
    (∀ A : Mat α, Restored A) ∧ (∀ rows : List (List α), RowsJudged rows) ∧
      ∀ m n, GivenOut (α := α) m n :=
  ⟨restored, rowsJudged, fun _ _ => ⟨fun _ _ => toRowMajor_of_ofRowMajor?,
    fun _ _ => toColumnMajor_of_ofColumnMajor?, fun _ _ => toTable_of_ofTable?⟩⟩

/-- Scattered doubles come back as a block; a short row is named. -/
theorem scattered_doubles_come_back :
    let A : Mat Float := (fill 2 3 Nat.two_pos (Nat.succ_pos 2) 1).scatter
    (A.data.size < wordBound ∧ ofRowMajor? A.rows A.columns A.toRowMajor = .ok A.toDense) ∧
      ofRows? [[1, 2], [3, 4], [(5 : Float)], [6]] = refuse (.raggedRows 2 2 1) := by
  intro A
  obtain ⟨hRestored, hJudged, -⟩ := conversions_invert_each_other (α := Float)
  constructor
  · have hSize : A.data.size < wordBound := by
      rw [size_eq]
      exact Nat.lt_of_lt_of_le (by decide : 2 * 3 < 2 ^ 3)
        (Nat.pow_le_pow_right Nat.two_pos (by decide))
    exact ⟨hSize, (hRestored A).rowMajor hSize⟩
  · refine ((hJudged _).ragged_refused 2 2 1).mpr ⟨[1, 2], rfl, List.cons_ne_nil _ _, rfl, ?_⟩
    refine ⟨⟨[5], rfl, rfl⟩, by decide, fun i hi row hRow => ?_⟩
    obtain rfl | rfl : i = 0 ∨ i = 1 := by omega
    all_goals
      simp only [List.getElem?_cons_succ, List.getElem?_cons_zero, Option.some.injEq] at hRow
      simp only [← hRow, List.length_cons, List.length_nil]

end Almanac.Mat
