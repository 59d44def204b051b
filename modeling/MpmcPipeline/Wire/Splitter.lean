import Mathlib.Data.List.Basic
import Mathlib.Data.Nat.Init

/-!
# Splitters

A splitter walks over a frame. At an offset its `Cut` either stops, with what counts as
consumed, or finds a piece: the piece goes to a handler, which accepts or rejects it, and the
walk goes on at the next offset. `run` is such a loop, with a bound on its iterations.

What is split off depends on the frame alone (`Splits`), the handler has no say in it: where
the walk comes to an end, the loop is `handle`, the handler called on these pieces one after
the other (`Splits.run`), and a loop that returns has walked so (`exists_splits`). A walk along
which the offset grows up to a limit comes to an end (`exists_splits_of_growing`).
-/

namespace Splitter

/-- What one look at an offset finds. -/
inductive Cut (β : Type*)
  | stop (consumed : ℕ)
  | call (piece : β) (next : ℕ)

section

variable {σ β γ : Type*} {handler : σ → β → Option (σ × Bool)} {cut : ℕ → Cut β}

/-- The handler called on one piece after the other, with its answers. -/
def handle (handler : σ → β → Option (σ × Bool)) : List β → σ → Option (σ × List Bool)
  | [], s => some (s, [])
  | piece :: pieces, s =>
    match handler s piece with
    | none => none
    | some (s, accepted) => (handle handler pieces s).map fun r => (r.1, accepted :: r.2)

theorem handle_append (pieces pieces' : List β) (s : σ) :
    handle handler (pieces ++ pieces') s = (handle handler pieces s).bind fun r =>
      (handle handler pieces' r.1).map fun r' => (r'.1, r.2 ++ r'.2) := by
  induction pieces generalizing s with
  | nil => simp only [List.nil_append, handle, Option.bind_some, Option.map_id']
  | cons piece pieces ih =>
    rw [List.cons_append, handle, handle]
    cases handler s piece with
    | none => rfl
    | some r =>
      obtain ⟨s₁, accepted⟩ := r
      simp only [ih, Option.map_bind, Option.bind_map, Function.comp_def, Option.map_map,
        List.cons_append]

/-- Calls on what `f` makes of the pieces. -/
theorem handle_map (handler : σ → γ → Option (σ × Bool)) (f : β → γ) (pieces : List β) (s : σ) :
    handle (fun s piece => handler s (f piece)) pieces s = handle handler (pieces.map f) s := by
  induction pieces generalizing s with
  | nil => rfl
  | cons piece pieces ih =>
    rw [List.map_cons, handle, handle]
    cases handler s (f piece) with
    | none => rfl
    | some r => simp only [ih]

theorem handle_congr {handler' : σ → β → Option (σ × Bool)} {pieces : List β}
    (h : ∀ s, ∀ piece ∈ pieces, handler s piece = handler' s piece) (s : σ) :
    handle handler pieces s = handle handler' pieces s := by
  induction pieces generalizing s with
  | nil => rfl
  | cons piece pieces ih =>
    rw [handle, handle, h s piece List.mem_cons_self]
    cases handler' s piece with
    | none => rfl
    | some r => simp only [ih fun s p h_p => h s p (List.mem_cons_of_mem _ h_p)]

/-- Every call is answered once. -/
theorem handle_length {pieces : List β} {s s' : σ} {answers : List Bool}
    (h : handle handler pieces s = some (s', answers)) : answers.length = pieces.length := by
  -- by the pieces, with the handler called on the first
  induction pieces generalizing s answers with
  | nil =>
    cases h
    rfl
  | cons piece pieces ih =>
    rw [handle] at h
    cases h_call : handler s piece with
    | none =>
      rw [h_call] at h
      cases h
    | some r =>
      rw [h_call] at h
      obtain ⟨⟨s₂, rest⟩, h_rest, h_eq⟩ := Option.map_eq_some_iff.mp h
      cases h_eq
      rw [List.length_cons, List.length_cons, ih h_rest]

/-- A handler that returns from every call returns from all of them. -/
theorem handle_isSome {pieces : List β}
    (h : ∀ s, ∀ piece ∈ pieces, (handler s piece).isSome) (s : σ) :
    (handle handler pieces s).isSome := by
  induction pieces generalizing s with
  | nil => rfl
  | cons piece pieces ih =>
    obtain ⟨⟨s₁, accepted⟩, h_call⟩ :=
      Option.isSome_iff_exists.mp (h s piece List.mem_cons_self)
    rw [handle, h_call]
    exact Option.isSome_map.trans (ih (fun s p h_p => h s p (List.mem_cons_of_mem _ h_p)) s₁)

/-- The loop from an offset, with at most `fuel` iterations: the handler's state, its answers
and what counts as consumed. -/
def run (cut : ℕ → Cut β) (handler : σ → β → Option (σ × Bool)) :
    ℕ → ℕ → σ → Option (σ × List Bool × ℕ)
  | 0, _, _ => none
  | fuel + 1, offset, s =>
    match cut offset with
    | .stop consumed => some (s, [], consumed)
    | .call piece next =>
      match handler s piece with
      | none => none
      | some (s, accepted) =>
        (run cut handler fuel next s).map fun r => (r.1, accepted :: r.2.1, r.2.2)

/-- More iterations do not change what a loop that returns has done. -/
theorem run_mono {fuel fuel' offset : ℕ} {s : σ} {r : σ × List Bool × ℕ} (h_le : fuel ≤ fuel')
    (h : run cut handler fuel offset s = some r) : run cut handler fuel' offset s = some r := by
  induction fuel generalizing fuel' offset s r with
  | zero => cases h
  | succ fuel ih =>
    obtain ⟨fuel', rfl⟩ : ∃ n, fuel' = n + 1 :=
      Nat.exists_eq_succ_of_ne_zero (Nat.ne_zero_of_lt h_le)
    rw [run] at h ⊢
    cases h_cut : cut offset with
    -- the same cut is made at any number of iterations
    | stop consumed => rwa [h_cut] at h
    | call piece next =>
      rw [h_cut] at h
      dsimp only at h ⊢
      -- the handler may not return, and then neither does the loop
      cases h_call : handler s piece with
      | none =>
        rw [h_call] at h
        cases h
      | some answer =>
        rw [h_call] at h
        obtain ⟨rest, h_rest, rfl⟩ := Option.map_eq_some_iff.mp h
        dsimp only
        rw [ih (Nat.le_of_succ_le_succ h_le) h_rest]
        rfl

/-- The pieces that are split off from an offset on, and what is consumed at the end. -/
inductive Splits (cut : ℕ → Cut β) : ℕ → List β → ℕ → Prop
  | stop {offset consumed : ℕ} (h : cut offset = .stop consumed) : Splits cut offset [] consumed
  | call {offset next consumed : ℕ} {piece : β} {pieces : List β}
      (h : cut offset = .call piece next) (h_rest : Splits cut next pieces consumed) :
      Splits cut offset (piece :: pieces) consumed

/-- One iteration leads from an offset to the next. -/
def Next (cut : ℕ → Cut β) (offset next : ℕ) : Prop := ∃ piece, cut offset = .call piece next

/-- **The loop is the handler on the pieces.** -/
theorem Splits.run {offset consumed fuel : ℕ} {pieces : List β}
    (h : Splits cut offset pieces consumed) (h_fuel : pieces.length < fuel) (s : σ) :
    Splitter.run cut handler fuel offset s =
      (handle handler pieces s).map fun r => (r.1, r.2, consumed) := by
  induction h generalizing fuel s with
  | stop h =>
    -- no piece is left, and the loop stops with what it has consumed
    cases fuel with
    | zero => exact absurd h_fuel (Nat.not_lt_zero _)
    | succ fuel =>
      rw [Splitter.run, h]
      rfl
  | call h h_rest ih =>
    -- one piece more, and one iteration for it
    cases fuel with
    | zero => exact absurd h_fuel (Nat.not_lt_zero _)
    | succ fuel =>
      rw [Splitter.run, h, handle]
      dsimp only
      cases handler s _ with
      | none => rfl
      | some r =>
        dsimp only
        rw [ih (Nat.lt_of_succ_lt_succ h_fuel), Option.map_map, Option.map_map]
        rfl

/-- A loop that returns has come to the end of a walk. -/
theorem exists_splits {fuel offset consumed : ℕ} {s s' : σ} {answers : List Bool}
    (h : run cut handler fuel offset s = some (s', answers, consumed)) :
    ∃ pieces, Splits cut offset pieces consumed ∧ handle handler pieces s = some (s', answers) := by
  -- by the iterations that were made
  induction fuel generalizing offset s answers with
  | zero => cases h
  | succ fuel ih =>
    rw [run] at h
    cases h_cut : cut offset with
    | stop c =>
      -- the walk ends here
      rw [h_cut] at h
      cases h
      exact ⟨[], .stop h_cut, rfl⟩
    | call piece next =>
      -- the walk goes on behind the piece
      rw [h_cut] at h
      dsimp only at h
      cases h_call : handler s piece with
      | none =>
        rw [h_call] at h
        cases h
      | some r =>
        rw [h_call] at h
        obtain ⟨⟨s₂, rest, c⟩, h_run, h_eq⟩ := Option.map_eq_some_iff.mp h
        cases h_eq
        obtain ⟨pieces, h_splits, h_handle⟩ := ih h_run
        refine ⟨piece :: pieces, .call h_cut h_splits, ?_⟩
        rw [handle, h_call]
        dsimp only
        rw [h_handle]
        rfl

/-- A walk that only grows, and not beyond `limit`, comes to an end. -/
theorem exists_splits_of_growing (limit : ℕ) {I : ℕ → Prop}
    (h_step : ∀ offset next, I offset → Next cut offset next →
      I next ∧ offset < next ∧ next ≤ limit) {offset : ℕ} (hI : I offset) :
    ∃ pieces consumed, Splits cut offset pieces consumed := by
  -- induction on what is left up to the limit
  induction h_left : limit - offset using Nat.strong_induction_on generalizing offset with
  | _ left ih =>
    cases h_cut : cut offset with
    | stop consumed => exact ⟨[], consumed, .stop h_cut⟩
    | call piece next =>
      obtain ⟨h_next, h_grows, h_limit⟩ := h_step offset next hI ⟨piece, h_cut⟩
      obtain ⟨pieces, consumed, h_splits⟩ := ih (limit - next) (by omega) h_next rfl
      exact ⟨piece :: pieces, consumed, .call h_cut h_splits⟩

end

end Splitter
