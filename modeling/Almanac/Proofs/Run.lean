import Mathlib.Data.List.Induction
import Mathlib.Data.Option.Basic
import Almanac.Outcome

/-! # Runs of a machine that answers

A run takes requests one after the other, each with an answer and a next state. A request without an
answer ends the run.
-/
namespace Almanac
set_option autoImplicit false

section Related
variable {α β γ δ : Type} {R : α → β → Prop} {S : γ → δ → Prop}

theorem rel_bind {x : Option α} {y : Option β} {f : α → Option γ} {g : β → Option δ}
    (h : Option.Rel R x y) (hNext : ∀ a b, R a b → Option.Rel S (f a) (g b)) :
    Option.Rel S (x.bind f) (y.bind g) := by
  cases h with
  | none => exact .none
  | some h => exact hNext _ _ h

theorem rel_map {x : Option α} {y : Option β} {f : α → γ} {g : β → δ}
    (h : Option.Rel R x y) (hNext : ∀ a b, R a b → S (f a) (g b)) :
    Option.Rel S (x.map f) (y.map g) := by
  cases h with
  | none => exact .none
  | some h => exact .some (hNext _ _ h)

end Related

variable {σ τ β γ : Type}

/-- The answers of a run and the state that it ends in. -/
def runBy (step : σ → β → Option (γ × σ)) : σ → List β → Option (List γ × σ)
  | s, [] => some ([], s)
  | s, b :: rest =>
    (step s b).bind fun r => (runBy step r.2 rest).map fun q => (r.1 :: q.1, q.2)

theorem runBy_append (step : σ → β → Option (γ × σ)) (s : σ) (bs cs : List β) :
    runBy step s (bs ++ cs) = (runBy step s bs).bind fun r =>
      (runBy step r.2 cs).map fun q => (r.1 ++ q.1, q.2) := by
  induction bs generalizing s with
  | nil => simp [runBy]
  | cons b bs ih =>
    rw [List.cons_append, runBy, runBy, Option.bind_assoc]
    congr 1
    funext r
    rw [ih, Option.map_bind, Option.bind_map]
    simp [Function.comp_def]

/-- What every step keeps beside a fold of the requests holds when a run ends. -/
theorem runBy_foldl {R : σ → τ → Prop} {P : β → Prop} {step : σ → β → Option (γ × σ)}
    {act : τ → β → τ} (hStep : ∀ s t b r, R s t → P b → step s b = some r → R r.2 (act t b))
    {s : σ} {t : τ} (h : R s t) {bs : List β} (hBs : ∀ b ∈ bs, P b) {r : List γ × σ}
    (hRun : runBy step s bs = some r) : R r.2 (bs.foldl act t) := by
  induction bs generalizing s t r with
  | nil =>
    obtain rfl : ([], s) = r := Option.some.inj hRun
    exact h
  | cons b bs ih =>
    obtain ⟨q, hFirst, hRest⟩ := Option.bind_eq_some_iff.mp hRun
    obtain ⟨u, hTail, rfl⟩ := Option.map_eq_some_iff.mp hRest
    have hNext := hStep s t b q h (hBs b List.mem_cons_self) hFirst
    have hLast := ih hNext (fun c hc => hBs c (List.mem_cons_of_mem _ hc)) hTail
    exact hLast

theorem snd_runBy_concat (step : σ → β → Option (γ × σ)) (s : σ) (bs : List β) (b : β) :
    (runBy step s (bs ++ [b])).map Prod.snd =
      ((runBy step s bs).map Prod.snd).bind fun u => (step u b).map Prod.snd := by
  rw [runBy_append]
  cases runBy step s bs with
  | none => rfl
  | some r => cases hStep : step r.2 b <;> simp [runBy, hStep]

/-- A run that ends goes on from every state on its way. -/
theorem step_of_run {step : σ → β → Option (γ × σ)} {s : σ} {bs : List β} {result : List γ × σ}
    (hRun : runBy step s bs = some result) {before : List β} {b : β} {rest : List β}
    (hSplit : bs = before ++ b :: rest) {u : σ} (hu : (runBy step s before).map Prod.snd = some u) :
    ∃ r, step u b = some r := by
  rw [hSplit, runBy_append] at hRun
  obtain ⟨q, hFirst, hRest⟩ := Option.bind_eq_some_iff.mp hRun
  obtain rfl : q.2 = u := by simpa [hFirst] using hu
  obtain ⟨_, hTail, -⟩ := Option.map_eq_some_iff.mp hRest
  obtain ⟨r, hNext, -⟩ := Option.bind_eq_some_iff.mp hTail
  exact ⟨r, hNext⟩

/-- Where a step keeps a property exactly under a condition, a run has the property throughout
exactly if all of its steps meet the condition. -/
theorem always_iff {P : σ → Prop} {Q : σ → β → Prop} {step : σ → β → Option (γ × σ)}
    (hStep : ∀ s b r, P s → step s b = some r → (P r.2 ↔ Q s b)) {s : σ} (h : P s) {bs : List β}
    {result : List γ × σ} (hRun : runBy step s bs = some result) :
    (∀ before rest, bs = before ++ rest → ∀ u, (runBy step s before).map Prod.snd = some u → P u) ↔
      ∀ before b rest, bs = before ++ b :: rest →
        ∀ u, (runBy step s before).map Prod.snd = some u → Q u b := by
  constructor
  · intro hAlways before b rest hSplit u hu
    obtain ⟨r, hNext⟩ := step_of_run hRun hSplit hu
    have hHere := hAlways before (b :: rest) hSplit u hu
    refine (hStep u b r hHere hNext).mp (hAlways (before ++ [b]) rest (by simp [hSplit]) r.2 ?_)
    rw [snd_runBy_concat, hu, Option.bind_some, hNext]
    rfl
  · intro hMeets before
    induction before using List.reverseRecOn with
    | nil =>
      rintro rest - u hu
      obtain rfl : s = u := Option.some.inj hu
      exact h
    | append_singleton before b ih =>
      intro rest hSplit u hu
      rw [snd_runBy_concat] at hu
      obtain ⟨t, ht, hLast⟩ := Option.bind_eq_some_iff.mp hu
      obtain ⟨r, hNext, rfl⟩ := Option.map_eq_some_iff.mp hLast
      have hSplit' : bs = before ++ b :: rest := by simpa using hSplit
      have hBefore := ih (b :: rest) hSplit' t ht
      exact (hStep t b r hBefore hNext).mpr (hMeets before b rest hSplit' t ht)

/-- Equal answers and related states, or no answer on either side. -/
def Agree (R : σ → τ → Prop) : Option (γ × σ) → Option (γ × τ) → Prop :=
  Option.Rel fun x y => x.1 = y.1 ∧ R x.2 y.2

theorem Agree.mono {R S : σ → τ → Prop} {x : Option (γ × σ)} {y : Option (γ × τ)}
    (h : Agree R x y) (hWeaker : ∀ s t, R s t → S s t) : Agree S x y := by
  cases h with
  | none => exact .none
  | some h => exact .some ⟨h.1, hWeaker _ _ h.2⟩

theorem Agree.exists_right {R : σ → τ → Prop} {c : γ} {s : σ} {y : Option (γ × τ)}
    (h : Agree R (some (c, s)) y) : ∃ t, y = some (c, t) ∧ R s t := by
  cases h with
  | some h =>
    rename_i q
    obtain ⟨rfl, hState⟩ := h
    exact ⟨q.2, rfl, hState⟩

theorem Agree.exists_left {R : σ → τ → Prop} {c : γ} {t : τ} {x : Option (γ × σ)}
    (h : Agree R x (some (c, t))) : ∃ s, x = some (c, s) ∧ R s t := by
  cases h with
  | some h =>
    rename_i p
    obtain ⟨rfl, hState⟩ := h
    exact ⟨p.2, rfl, hState⟩

/-- Machines whose steps agree have runs that agree. -/
theorem agree_runBy {R : σ → τ → Prop} {P : β → Prop} {f : σ → β → Option (γ × σ)}
    {g : τ → β → Option (γ × τ)} (hStep : ∀ s t b, R s t → P b → Agree R (f s b) (g t b))
    {s : σ} {t : τ} (h : R s t) (bs : List β) (hBs : ∀ b ∈ bs, P b) :
    Agree R (runBy f s bs) (runBy g t bs) := by
  induction bs generalizing s t with
  | nil => exact .some ⟨rfl, h⟩
  | cons b bs ih =>
    apply rel_bind (hStep s t b h (hBs b List.mem_cons_self))
    rintro x y ⟨hAnswer, hNext⟩
    apply rel_map (ih hNext fun c hc => hBs c (List.mem_cons_of_mem _ hc))
    rintro p q ⟨hAnswers, hLast⟩
    exact ⟨by rw [hAnswer, hAnswers], hLast⟩

/-- Related states, or a fault against nothing. -/
inductive Meets {ε : Type} (R : σ → τ → Prop) : Outcome ε σ → Option τ → Prop
  | ok {s : σ} {t : τ} : R s t → Meets R (.ok s) (some t)
  | fault : Meets R (.error .fault) none

theorem meets_foldlM {ε : Type} {R : σ → τ → Prop} {P : β → Prop} {f : σ → β → Outcome ε σ}
    {g : τ → β → Option τ} (hStep : ∀ s t b, R s t → P b → Meets R (f s b) (g t b))
    {s : σ} {t : τ} (h : R s t) (bs : List β) (hBs : ∀ b ∈ bs, P b) :
    Meets R (bs.foldlM f s) (bs.foldlM g t) := by
  induction bs generalizing s t with
  | nil => exact .ok h
  | cons b bs ih =>
    rw [List.foldlM_cons, List.foldlM_cons]
    have hMeets := hStep s t b h (hBs b List.mem_cons_self)
    generalize f s b = x, g t b = y at hMeets
    cases hMeets with
    | ok hNext => exact ih hNext fun c hc => hBs c (List.mem_cons_of_mem _ hc)
    | fault => exact .fault

end Almanac
