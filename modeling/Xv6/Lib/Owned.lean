import Mathlib.Data.Set.Insert
import Mathlib.Logic.Function.Basic

namespace Xv6.Lib

variable {ι α : Type*}

/-- Units of a pool and the slots that refer to them: a slot holds a unit or `none`, no unit is in
two slots, and the units in use are those in a slot and the `pend`ing ones, on their way to one. -/
structure Owned (pool used : α → Prop) (refs : ι → Option α) (pend : Set α) : Prop where
  inPool : ∀ x b, refs x = some b → pool b
  inj : ∀ x y b, refs x = some b → refs y = some b → x = y
  used_iff : ∀ b, pool b → (used b ↔ b ∈ pend ∨ ∃ x, refs x = some b)
  pending : ∀ b ∈ pend, pool b ∧ ∀ x, refs x ≠ some b

namespace Owned

variable {pool used used' : α → Prop} {refs refs' : ι → Option α} {pend : Set α} {b : α} {x : ι}

theorem used_of_ref (h : Owned pool used refs pend) (hx : refs x = some b) : used b :=
  (h.used_iff b (h.inPool x b hx)).mpr (Or.inr ⟨x, hx⟩)

theorem not_ref_of_not_used (h : Owned pool used refs pend) (hb : ¬ used b) : refs x ≠ some b :=
  fun hx => hb (h.used_of_ref hx)

theorem congr (h : Owned pool used refs pend) (hu : ∀ b, pool b → (used' b ↔ used b))
    (hr : ∀ x, refs' x = refs x) : Owned pool used' refs' pend := by
  obtain rfl : refs' = refs := funext hr
  exact ⟨h.inPool, h.inj, fun b hb => (hu b hb).trans (h.used_iff b hb), h.pending⟩

theorem alloc (h : Owned pool used refs pend) (hp : pool b) (hb : ¬ used b)
    (hu : ∀ c, pool c → (used' c ↔ c = b ∨ used c)) : Owned pool used' refs (insert b pend) := by
  refine ⟨h.inPool, h.inj, fun c hc => ?_, ?_⟩
  · rw [hu c hc, h.used_iff c hc, Set.mem_insert_iff, or_assoc]
  · rintro c (rfl | hc)
    · exact ⟨hp, fun x => h.not_ref_of_not_used hb⟩
    · exact h.pending c hc

theorem install [DecidableEq ι] (h : Owned pool used refs (insert b pend)) (hb : b ∉ pend)
    (hx : refs x = none) (hr : ∀ y, refs' y = Function.update refs x (some b) y) :
    Owned pool used refs' pend := by
  obtain rfl : refs' = Function.update refs x (some b) := funext hr
  have hfresh := h.pending b (Set.mem_insert _ _)
  have hcase (y : ι) (c : α) (hy : Function.update refs x (some b) y = some c) :
      y = x ∧ c = b ∨ y ≠ x ∧ refs y = some c := by
    by_cases hyx : y = x
    · subst hyx
      rw [Function.update_self, Option.some.injEq] at hy
      exact Or.inl ⟨rfl, hy.symm⟩
    · rw [Function.update_of_ne hyx] at hy
      exact Or.inr ⟨hyx, hy⟩
  refine ⟨?_, ?_, ?_, ?_⟩
  · intro y c hy
    rcases hcase y c hy with ⟨-, rfl⟩ | ⟨-, hy⟩
    · exact hfresh.1
    · exact h.inPool y c hy
  · intro y z c hy hz
    rcases hcase y c hy with ⟨rfl, rfl⟩ | ⟨-, hy'⟩ <;> rcases hcase z c hz with ⟨rfl, hc⟩ | ⟨-, hz'⟩
    · rfl
    · exact absurd hz' (hfresh.2 z)
    · exact absurd (hc ▸ hy') (hfresh.2 y)
    · exact h.inj y z c hy' hz'
  · intro c hc
    rw [h.used_iff c hc, Set.mem_insert_iff]
    constructor
    · rintro ((rfl | hp) | ⟨y, hy⟩)
      · exact Or.inr ⟨x, Function.update_self _ _ _⟩
      · exact Or.inl hp
      · refine Or.inr ⟨y, ?_⟩
        rw [Function.update_of_ne (by rintro rfl; simp [hx] at hy), hy]
    · rintro (hp | ⟨y, hy⟩)
      · exact Or.inl (Or.inr hp)
      · rcases hcase y c hy with ⟨-, rfl⟩ | ⟨-, hy⟩
        · exact Or.inl (Or.inl rfl)
        · exact Or.inr ⟨y, hy⟩
  · intro c hc
    obtain ⟨hp, hn⟩ := h.pending c (Set.mem_insert_of_mem _ hc)
    refine ⟨hp, fun y hy => ?_⟩
    rcases hcase y c hy with ⟨-, rfl⟩ | ⟨-, hy⟩
    · exact hb hc
    · exact hn y hy

theorem release {X : Set ι} (h : Owned pool used refs pend)
    (hu : ∀ b, pool b → (used' b ↔ used b ∧ ∀ x ∈ X, refs x ≠ some b))
    (hX : ∀ x ∈ X, refs' x = none) (hr : ∀ x ∉ X, refs' x = refs x) : Owned pool used' refs' pend := by
  have hcase (x : ι) (b : α) (hx : refs' x = some b) : x ∉ X ∧ refs x = some b := by
    have hn : x ∉ X := fun hm => by simp [hX x hm] at hx
    exact ⟨hn, (hr x hn) ▸ hx⟩
  refine ⟨fun x b hx => h.inPool x b (hcase x b hx).2,
    fun x y b hx hy => h.inj x y b (hcase x b hx).2 (hcase y b hy).2, fun b hb => ?_, fun b hb => ?_⟩
  · rw [hu b hb, h.used_iff b hb]
    constructor
    · rintro ⟨hp | ⟨x, hx⟩, hn⟩
      · exact Or.inl hp
      · have hxX : x ∉ X := fun hm => hn x hm hx
        exact Or.inr ⟨x, (hr x hxX).trans hx⟩
    · rintro (hp | ⟨x, hx⟩)
      · exact ⟨Or.inl hp, fun y _ => (h.pending b hp).2 y⟩
      · obtain ⟨hxX, hx⟩ := hcase x b hx
        refine ⟨Or.inr ⟨x, hx⟩, fun y hy hyb => ?_⟩
        exact hxX (h.inj y x b hyb hx ▸ hy)
  · exact ⟨(h.pending b hb).1, fun x hx => (h.pending b hb).2 x (hcase x b hx).2⟩

end Owned

end Xv6.Lib
