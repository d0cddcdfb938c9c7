import Mathlib.Logic.Function.Basic
import Mathlib.Data.List.Nodup

namespace Xv6.Lib.Replay

variable {α β : Type*} [DecidableEq α]

def replay : List (α × β) → (α → β) → α → β
  | [], d => d
  | (a, v) :: es, d => replay es (Function.update d a v)

@[simp] theorem replay_nil (d : α → β) : replay [] d = d := rfl

@[simp] theorem replay_cons (a : α) (v : β) (es : List (α × β)) (d : α → β) :
    replay ((a, v) :: es) d = replay es (Function.update d a v) := rfl

theorem replay_append (es fs : List (α × β)) (d : α → β) :
    replay (es ++ fs) d = replay fs (replay es d) := by
  induction es generalizing d with
  | nil => rfl
  | cons e es ih => exact ih _

theorem replay_congr {es : List (α × β)} {d d' : α → β} {x : α}
    (h : x ∈ es.map Prod.fst ∨ d x = d' x) : replay es d x = replay es d' x := by
  induction es generalizing d d' with
  | nil => simpa using h
  | cons e es ih =>
    obtain ⟨a, v⟩ := e
    rw [replay_cons, replay_cons]
    apply ih
    by_cases hx : x = a
    · exact Or.inr (by simp [hx])
    · simp only [List.map_cons, List.mem_cons] at h
      rcases h with (h | h) | h
      · exact absurd h hx
      · exact Or.inl h
      · exact Or.inr (by simp [Function.update_of_ne hx, h])

theorem replay_update {es : List (α × β)} {d : α → β} {a : α} {v : β}
    (h : a ∈ es.map Prod.fst) : replay es (Function.update d a v) = replay es d := by
  funext x
  apply replay_congr
  by_cases hx : x = a
  · exact Or.inl (hx ▸ h)
  · exact Or.inr (Function.update_of_ne hx _ _)

theorem replay_of_installed {es : List (α × β)} {d : α → β} (h : ∀ e ∈ es, d e.1 = e.2) :
    replay es d = d := by
  induction es generalizing d with
  | nil => rfl
  | cons e es ih =>
    have he : Function.update d e.1 e.2 = d := by rw [← h e (by simp), Function.update_eq_self]
    rw [replay_cons, he]
    exact ih (fun e he => h e (List.mem_cons_of_mem _ he))

end Xv6.Lib.Replay
