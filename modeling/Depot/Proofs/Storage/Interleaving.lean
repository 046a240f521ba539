import Depot.Proofs.Listing.Completeness
import Depot.Proofs.Storage.Change

/-!
A listing while other callers change the store. Between any two moves of the listing any
changes may take place; each move sees the store as it is then.
-/
namespace Depot.Storage

open Listing (Plan Timeline)

abbrev Sight (σ : Type) := σ × Timeline.Moment

/-- A listing that began on the state `first`, after the moves in `past` and the changes
in `changes`, in whatever order these took turns. -/
inductive Interleaved {σ : Type} (b : Backend σ) (p : Plan) (first : σ) :
    List (Sight σ) → List Change → Timeline → σ → Prop
  | start : Interleaved b p first [] [] (.start p) first
  | move {past : List (Sight σ)} {changes : List Change} {s s' : Timeline} {now : σ}
      (hrun : Interleaved b p first past changes s now)
      (hmove : Timeline.Move p (b.source now p.callOptions) s s') :
      Interleaved b p first (past ++ [(now, ⟨b.source now p.callOptions, s, s'⟩)]) changes s' now
  | change {past : List (Sight σ)} {changes : List Change} {s : Timeline} {now : σ}
      (hrun : Interleaved b p first past changes s now) (c : Change) :
      Interleaved b p first past (changes ++ [c]) s (c.apply b now)

namespace Interleaved

variable {σ : Type} {b : Backend σ} {p : Plan} {first now : σ} {past : List (Sight σ)}
  {changes : List Change} {s : Timeline}

theorem runs (h : Interleaved b p first past changes s now) :
    Timeline.Runs p (past.map Prod.snd) s ∧
      ∀ x ∈ past, x.2.source = b.source x.1 p.callOptions := by
  induction h with
  | start => exact ⟨.start, by simp⟩
  | move _ hmove ih =>
    rw [List.map_append]
    refine ⟨.move ih.1 hmove, fun x hx => ?_⟩
    rcases List.mem_append.mp hx with hx | hx
    · exact ih.2 x hx
    · obtain rfl := List.mem_singleton.mp hx
      rfl
  | change _ _ ih => exact ih

/-- What held at first and is kept by each of the changes holds whenever the listing looks. -/
theorem always (h : Interleaved b p first past changes s now) {P : σ → Prop} (hfirst : P first)
    (hstep : ∀ c ∈ changes, ∀ s, P s → P (c.apply b s)) : (∀ x ∈ past, P x.1) ∧ P now := by
  induction h with
  | start => exact ⟨by simp, hfirst⟩
  | move _ _ ih =>
    obtain ⟨hpast, hnow⟩ := ih hstep
    refine ⟨fun x hx => ?_, hnow⟩
    rcases List.mem_append.mp hx with hx | hx
    · exact hpast x hx
    · obtain rfl := List.mem_singleton.mp hx
      exact hnow
  | change _ c ih =>
    obtain ⟨hpast, hnow⟩ := ih fun c' hc' => hstep c' (List.mem_append_left _ hc')
    exact ⟨hpast, hstep c (by simp) _ hnow⟩

end Interleaved

end Depot.Storage
