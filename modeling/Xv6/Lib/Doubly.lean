import Mathlib.Data.List.Nodup
import Mathlib.Logic.Function.Basic

namespace Xv6.Lib.Doubly

open Function (update update_of_ne update_self)

structure Links (α : Type) where
  next : α → α
  prev : α → α

variable {α : Type}

def Linked (L : Links α) : α → List α → α → Prop
  | a, [], b => L.next a = b ∧ L.prev b = a
  | a, x :: l, b => L.next a = x ∧ L.prev x = a ∧ Linked L x l b

structure Loop (L : Links α) (h : α) (l : List α) : Prop where
  linked : Linked L h l h
  nodup : (h :: l).Nodup

variable {L M : Links α} {a b c h x : α} {l l₁ l₂ : List α}

theorem linked_append : Linked L a (l₁ ++ x :: l₂) b ↔ Linked L a l₁ x ∧ Linked L x l₂ b := by
  induction l₁ generalizing a with
  | nil => exact and_assoc.symm
  | cons y l₁ ih =>
    rw [List.cons_append, Linked, ih, Linked, and_assoc, and_assoc]

theorem Linked.congr (h : Linked L a l b) (hnext : ∀ y ∈ a :: l, M.next y = L.next y)
    (hprev : ∀ y ∈ l ++ [b], M.prev y = L.prev y) : Linked M a l b := by
  induction l generalizing a with
  | nil =>
    rw [Linked, hnext a List.mem_cons_self, hprev b List.mem_cons_self]
    exact h
  | cons x l ih =>
    refine ⟨?_, ?_, ih h.2.2 (fun y hy => hnext y (List.mem_cons_of_mem _ hy)) (fun y hy => hprev y (List.mem_cons_of_mem _ hy))⟩
    · rw [hnext a List.mem_cons_self]
      exact h.1
    · rw [hprev x List.mem_cons_self]
      exact h.2.1

theorem Linked.prev_mem (h : Linked L a l b) : L.prev b ∈ a :: l := by
  induction l generalizing a with
  | nil =>
    rw [h.2]
    exact List.mem_cons_self
  | cons x l ih => exact List.mem_cons_of_mem _ (ih h.2.2)

theorem Linked.next_mem (h : Linked L a l b) : L.next a ∈ l ++ [b] := by
  cases l with
  | nil =>
    rw [h.1]
    exact List.mem_cons_self
  | cons x l =>
    rw [h.1]
    exact List.mem_cons_self

theorem Linked.retarget (h : Linked L a l b) (hnodup : (a :: l).Nodup)
    (hnext : ∀ y ∈ a :: l, y ≠ L.prev b → M.next y = L.next y) (hprev : ∀ y ∈ l, M.prev y = L.prev y)
    (hlast : M.next (L.prev b) = c) (hback : M.prev c = L.prev b) : Linked M a l c := by
  induction l generalizing a with
  | nil =>
    rw [h.2] at hlast hback
    exact ⟨hlast, hback⟩
  | cons x l ih =>
    obtain ⟨ha, hnodup⟩ := List.nodup_cons.mp hnodup
    refine ⟨?_, ?_, ih h.2.2 hnodup (fun y hy => hnext y (List.mem_cons_of_mem _ hy)) (fun y hy => hprev y (List.mem_cons_of_mem _ hy))⟩
    · rw [hnext a List.mem_cons_self, h.1]
      intro heq
      apply ha
      rw [heq]
      exact h.2.2.prev_mem
    · rw [hprev x List.mem_cons_self]
      exact h.2.1

theorem Linked.reverse (h : Linked L a l b) : Linked ⟨L.prev, L.next⟩ b l.reverse a := by
  induction l generalizing a with
  | nil => exact ⟨h.2, h.1⟩
  | cons x l ih =>
    rw [List.reverse_cons, linked_append]
    exact ⟨ih h.2.2, h.2.1, h.1⟩

theorem Linked.prev_next (h : Linked L a l b) (hx : x ∈ a :: l) : L.prev (L.next x) = x := by
  induction l generalizing a with
  | nil =>
    rw [List.mem_singleton.mp hx, h.1]
    exact h.2
  | cons y l ih =>
    rcases List.mem_cons.mp hx with rfl | hx
    · rw [h.1]
      exact h.2.1
    · exact ih h.2.2 hx

section

variable [DecidableEq α]

def Links.unlink (L : Links α) (b : α) : Links α :=
  let L : Links α := { L with prev := update L.prev (L.next b) (L.prev b) }
  { L with next := update L.next (L.prev b) (L.next b) }

def Links.push (L : Links α) (h b : α) : Links α :=
  let L : Links α := { L with next := update L.next b (L.next h) }
  let L : Links α := { L with prev := update L.prev b h }
  let L : Links α := { L with prev := update L.prev (L.next h) b }
  { L with next := update L.next h b }

theorem Loop.push (hr : Loop L h l) (hb : b ∉ h :: l) : Loop (L.push h b) h (b :: l) := by
  obtain ⟨hh, hl⟩ := List.nodup_cons.mp hr.nodup
  rw [List.mem_cons, not_or] at hb
  have hnode : ∀ y ∈ l ++ [h], y ≠ b := by
    rintro y hy rfl
    rcases List.mem_append.mp hy with hy | hy
    · exact hb.2 hy
    · exact hb.1 (List.mem_singleton.mp hy)
  have hfirst : (L.push h b).prev = update (update L.prev b h) (L.next h) b := by
    rw [Links.push]
    dsimp only
    rw [update_of_ne (Ne.symm hb.1)]
  have hnextb : (L.push h b).next b = L.next h := by
    rw [Links.push]
    dsimp only
    rw [update_of_ne hb.1, update_self]
  have hnext : ∀ y, y ≠ h → y ≠ b → (L.push h b).next y = L.next y := by
    intro y hyh hyb
    rw [Links.push]
    dsimp only
    rw [update_of_ne hyh, update_of_ne hyb]
  refine ⟨⟨update_self _ _ _, ?_, ?_⟩, ?_⟩
  · rw [hfirst, update_of_ne (Ne.symm (hnode _ hr.linked.next_mem)), update_self]
  · -- the first node of the loop has `b` before it
    have hlinked := hr.linked
    cases l with
    | nil =>
      refine ⟨hnextb.trans hlinked.1, ?_⟩
      rw [hfirst, hlinked.1, update_self]
    | cons x l =>
      obtain ⟨hx, hl⟩ := List.nodup_cons.mp hl
      refine ⟨hnextb.trans hlinked.1, ?_, hlinked.2.2.congr ?_ ?_⟩
      · rw [hfirst, hlinked.1, update_self]
      · intro y hy
        apply hnext
        · rintro rfl
          exact hh hy
        · exact hnode y (List.mem_append_left _ hy)
      · intro y hy
        have hyx : y ≠ x := by
          rintro rfl
          rcases List.mem_append.mp hy with hy | hy
          · exact hx hy
          · exact hh (List.mem_singleton.mp hy ▸ List.mem_cons_self)
        rw [hfirst, hlinked.1, update_of_ne hyx, update_of_ne (hnode y (List.mem_cons_of_mem _ hy))]
  · refine List.nodup_cons.mpr ⟨?_, List.nodup_cons.mpr ⟨hb.2, hl⟩⟩
    rw [List.mem_cons, not_or]
    exact ⟨Ne.symm hb.1, hh⟩

theorem Loop.unlink (hr : Loop L h (l₁ ++ b :: l₂)) : Loop (L.unlink b) h (l₁ ++ l₂) := by
  obtain ⟨hfront, hrest⟩ := linked_append.mp hr.linked
  obtain ⟨hh, hl⟩ := List.nodup_cons.mp hr.nodup
  have hnodup : (h :: l₁ ++ l₂).Nodup :=
    List.Nodup.sublist (((List.sublist_cons_self b l₂).append_left l₁).cons_cons h) hr.nodup
  have hfront_nodup : (h :: l₁).Nodup := List.Nodup.sublist (List.sublist_append_left _ _) hnodup
  obtain ⟨-, -, hdisj⟩ := List.nodup_append.mp hnodup
  have hbh : b ≠ h := by
    rintro rfl
    exact hh (List.mem_append_right _ List.mem_cons_self)
  refine ⟨?_, hnodup⟩
  -- `b->prev` has not been changed when it is read again
  have hself : b ≠ L.next b := by
    intro heq
    have hmem := hrest.next_mem
    rw [← heq] at hmem
    rcases List.mem_append.mp hmem with hb | hb
    · exact (List.nodup_cons.mp (List.nodup_append.mp hl).2.1).1 hb
    · exact hbh (List.mem_singleton.mp hb)
  have hprev : (L.unlink b).prev = update L.prev (L.next b) (L.prev b) := rfl
  have hnext : (L.unlink b).next = update L.next (L.prev b) (L.next b) := by
    rw [Links.unlink]
    dsimp only
    rw [update_of_ne hself]
  have hnext_of_ne : ∀ y, y ≠ L.prev b → (L.unlink b).next y = L.next y := by
    intro y hy
    rw [hnext, update_of_ne hy]
  have hprev_of_ne : ∀ y, y ≠ L.next b → (L.unlink b).prev y = L.prev y := by
    intro y hy
    rw [hprev, update_of_ne hy]
  have hlast : (L.unlink b).next (L.prev b) = L.next b := by
    rw [hnext, update_self]
  have hback : (L.unlink b).prev (L.next b) = L.prev b := by
    rw [hprev, update_self]
  cases l₂ with
  | nil =>
    rw [hrest.1] at hlast hback hprev_of_ne
    rw [List.append_nil]
    refine hfront.retarget hfront_nodup (fun y _ => hnext_of_ne y) (fun y hy => hprev_of_ne y ?_) hlast hback
    rintro rfl
    exact hh (List.mem_append_left _ hy)
  | cons q l₂ =>
    rw [hrest.1] at hlast hback hprev_of_ne
    obtain ⟨hq, -⟩ := List.nodup_cons.mp (List.Nodup.sublist (List.sublist_append_right (h :: l₁) _) hnodup)
    rw [linked_append]
    constructor
    · refine hfront.retarget hfront_nodup (fun y _ => hnext_of_ne y) (fun y hy => hprev_of_ne y ?_) hlast hback
      exact hdisj y (List.mem_cons_of_mem _ hy) q List.mem_cons_self
    · refine hrest.2.2.congr (fun y hy => hnext_of_ne y ?_) (fun y hy => hprev_of_ne y ?_)
      · exact Ne.symm (hdisj _ hfront.prev_mem y hy)
      · rcases List.mem_append.mp hy with hy | hy
        · rintro rfl
          exact hq hy
        · rw [List.mem_singleton.mp hy]
          exact hdisj h List.mem_cons_self q List.mem_cons_self

end

end Xv6.Lib.Doubly
