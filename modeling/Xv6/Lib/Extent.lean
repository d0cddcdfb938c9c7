import Mathlib

namespace Xv6.Lib

inductive Extent
  | free (n : ℕ)
  | live (n bytes : ℕ)

namespace Extent

def len : Extent → ℕ
  | free n => n
  | live n _ => n

def IsFree : Extent → Prop
  | free _ => True
  | live _ _ => False

def total (l : List Extent) : ℕ := (l.map len).sum

@[simp]
theorem total_nil : total [] = 0 := rfl

@[simp]
theorem total_cons (x : Extent) (l : List Extent) : total (x :: l) = x.len + total l := rfl

@[simp]
theorem total_append (l₁ l₂ : List Extent) : total (l₁ ++ l₂) = total l₁ + total l₂ := by
  simp [total]

@[simp]
theorem len_free (n : ℕ) : (free n).len = n := rfl

@[simp]
theorem len_live (n b : ℕ) : (live n b).len = n := rfl

/-! ### Addresses of the blocks from address `a` on -/

def starts : ℕ → List Extent → List ℕ
  | _, [] => []
  | a, x :: l => a :: starts (a + x.len) l

def frees : ℕ → List Extent → List ℕ
  | _, [] => []
  | a, free n :: l => a :: frees (a + n) l
  | a, live n _ :: l => frees (a + n) l

def lives : ℕ → List Extent → List (ℕ × ℕ)
  | _, [] => []
  | a, free n :: l => lives (a + n) l
  | a, live n b :: l => (a, b) :: lives (a + n) l

def lastFree : ℕ → ℕ → List Extent → ℕ
  | p, _, [] => p
  | _, a, free n :: l => lastFree a (a + n) l
  | p, a, live n _ :: l => lastFree p (a + n) l

variable {a p : ℕ} {l l₁ l₂ : List Extent}

theorem frees_append : frees a (l₁ ++ l₂) = frees a l₁ ++ frees (a + total l₁) l₂ := by
  induction l₁ generalizing a with
  | nil => rfl
  | cons x l₁ ih => cases x <;> simp [frees, ih, Nat.add_assoc]

theorem lives_append : lives a (l₁ ++ l₂) = lives a l₁ ++ lives (a + total l₁) l₂ := by
  induction l₁ generalizing a with
  | nil => rfl
  | cons x l₁ ih => cases x <;> simp [lives, ih, Nat.add_assoc]

theorem lastFree_append : lastFree p a (l₁ ++ l₂) = lastFree (lastFree p a l₁) (a + total l₁) l₂ := by
  induction l₁ generalizing a p with
  | nil => rfl
  | cons x l₁ ih => cases x <;> simp [lastFree, ih, Nat.add_assoc]

theorem lastFree_mem : lastFree p a l ∈ p :: frees a l := by
  induction l generalizing a p with
  | nil => exact List.mem_cons_self
  | cons x l ih =>
    cases x with
    | free n => exact List.mem_cons_of_mem _ ih
    | live n b => exact ih

theorem perm_starts : (frees a l ++ (lives a l).map Prod.fst).Perm (starts a l) := by
  induction l generalizing a with
  | nil => exact .nil
  | cons x l ih =>
    cases x with
    | free n => exact ih.cons a
    | live n b => exact List.perm_middle.trans (ih.cons a)

theorem exists_of_mem_frees {x : ℕ} (h : x ∈ frees a l) : ∃ l₁ n l₂, l = l₁ ++ free n :: l₂ ∧ x = a + total l₁ := by
  induction l generalizing a with
  | nil => cases h
  | cons y l ih =>
    cases y with
    | free n =>
      rcases List.mem_cons.mp h with rfl | h
      · exact ⟨[], n, l, rfl, rfl⟩
      · obtain ⟨l₁, m, l₂, rfl, rfl⟩ := ih h
        exact ⟨free n :: l₁, m, l₂, rfl, by simp [Nat.add_assoc]⟩
    | live n b =>
      obtain ⟨l₁, m, l₂, rfl, rfl⟩ := ih h
      exact ⟨live n b :: l₁, m, l₂, rfl, by simp [Nat.add_assoc]⟩

theorem exists_of_mem_lives {x : ℕ × ℕ} (h : x ∈ lives a l) :
    ∃ l₁ n l₂, l = l₁ ++ live n x.2 :: l₂ ∧ x.1 = a + total l₁ := by
  induction l generalizing a with
  | nil => cases h
  | cons y l ih =>
    cases y with
    | free n =>
      obtain ⟨l₁, m, l₂, rfl, hx⟩ := ih h
      exact ⟨free n :: l₁, m, l₂, rfl, by simp [hx, Nat.add_assoc]⟩
    | live n b =>
      rcases List.mem_cons.mp h with rfl | h
      · exact ⟨[], n, l, rfl, rfl⟩
      · obtain ⟨l₁, m, l₂, rfl, hx⟩ := ih h
        exact ⟨live n b :: l₁, m, l₂, rfl, by simp [hx, Nat.add_assoc]⟩

theorem frees_ge {x : ℕ} (h : x ∈ frees a l) : a ≤ x := by
  obtain ⟨l₁, n, l₂, -, rfl⟩ := exists_of_mem_frees h
  exact Nat.le_add_right _ _

theorem lives_ge {x : ℕ × ℕ} (h : x ∈ lives a l) : a ≤ x.1 := by
  obtain ⟨l₁, n, l₂, -, hx⟩ := exists_of_mem_lives h
  rw [hx]
  exact Nat.le_add_right _ _

/-! ### Links between the free blocks -/

def Positive (l : List Extent) : Prop := ∀ x ∈ l, 0 < x.len

theorem Positive.tail {x : Extent} (h : Positive (x :: l)) : 0 < x.len ∧ Positive l :=
  ⟨h x List.mem_cons_self, fun y hy => h y (List.mem_cons_of_mem _ hy)⟩

theorem lives_lt {x : ℕ × ℕ} (hl : Positive l) (h : x ∈ lives a l) : x.1 < a + total l := by
  obtain ⟨l₁, n, l₂, rfl, hx⟩ := exists_of_mem_lives h
  have := hl (live n x.2) (by simp)
  simp only [total_append, total_cons, len_live] at this ⊢
  omega

theorem frees_lt {x : ℕ} (hl : Positive l) (h : x ∈ frees a l) : x < a + total l := by
  obtain ⟨l₁, n, l₂, rfl, rfl⟩ := exists_of_mem_frees h
  have := hl (free n) (by simp)
  simp only [total_append, total_cons, len_free] at this ⊢
  omega

theorem lastFree_lt (hp : p < a) (hl : Positive l) : lastFree p a l < a + total l := by
  rcases List.mem_cons.mp (lastFree_mem (p := p) (a := a) (l := l)) with h | h
  · omega
  · exact frees_lt hl h

section Links

variable (ptr size : ℕ → ℕ)

def Linked : ℕ → ℕ → List Extent → Prop
  | _, _, [] => True
  | p, a, free n :: l => ptr p = a ∧ size a = n ∧ Linked a (a + n) l
  | p, a, live n _ :: l => size a = n ∧ Linked p (a + n) l

def Ends (e : ℕ) : ℕ → ℕ → List Extent → Prop
  | p, _, [] => ptr p = e
  | p, a, free n :: l => ptr p = a ∧ size a = n ∧ Ends e a (a + n) l
  | p, a, live n _ :: l => size a = n ∧ Ends e p (a + n) l

end Links

variable {ptr size ptr' size' : ℕ → ℕ} {e : ℕ}

theorem ends_append : Ends ptr size e p a (l₁ ++ l₂) ↔
    Linked ptr size p a l₁ ∧ Ends ptr size e (lastFree p a l₁) (a + total l₁) l₂ := by
  induction l₁ generalizing a p with
  | nil => simp [Linked, lastFree]
  | cons x l₁ ih => cases x <;> simp [Linked, Ends, lastFree, ih, Nat.add_assoc, and_assoc]

theorem Ends.linked (h : Ends ptr size e p a l) : Linked ptr size p a l := by
  rw [← List.append_nil l] at h
  exact (ends_append.mp h).1

theorem linked_append : Linked ptr size p a (l₁ ++ l₂) ↔
    Linked ptr size p a l₁ ∧ Linked ptr size (lastFree p a l₁) (a + total l₁) l₂ := by
  induction l₁ generalizing a p with
  | nil => simp [Linked, lastFree]
  | cons x l₁ ih => cases x <;> simp [Linked, lastFree, ih, Nat.add_assoc, and_assoc]

theorem Linked.congr (h : Linked ptr size p a l) (hp : p < a) (hl : Positive l)
    (hptr : ∀ x < a + total l, x ≠ lastFree p a l → ptr' x = ptr x)
    (hsize : ∀ x < a + total l, a ≤ x → size' x = size x) : Linked ptr' size' p a l := by
  induction l generalizing a p with
  | nil => trivial
  | cons x l ih =>
    obtain ⟨hx, hl'⟩ := hl.tail
    cases x with
    | free n =>
      simp only [len_free, total_cons, lastFree] at hx hptr hsize
      obtain ⟨h₁, h₂, h₃⟩ := h
      have hne : p ≠ lastFree a (a + n) l := by
        rcases List.mem_cons.mp (lastFree_mem (p := a) (a := a + n) (l := l)) with h | h
        · omega
        · have := frees_ge h
          omega
      refine ⟨?_, ?_, ih h₃ (by omega) hl' (fun x hx => hptr x (by omega)) (fun x hx hax => hsize x (by omega) (by omega))⟩
      · rw [hptr p (by omega) hne, h₁]
      · rw [hsize a (by omega) (Nat.le_refl a), h₂]
    | live n b =>
      simp only [len_live, total_cons, lastFree] at hx hptr hsize
      obtain ⟨h₁, h₂⟩ := h
      refine ⟨?_, ih h₂ (by omega) hl' (fun x hx => hptr x (by omega)) (fun x hx hax => hsize x (by omega) (by omega))⟩
      rw [hsize a (by omega) (Nat.le_refl a), h₁]

theorem Ends.congr {p' : ℕ} (h : Ends ptr size e p a l) (hp : ptr' p' = ptr p) (hptr : ∀ x, a ≤ x → ptr' x = ptr x)
    (hsize : ∀ x, a ≤ x → size' x = size x) : Ends ptr' size' e p' a l := by
  induction l generalizing a p p' with
  | nil => exact hp.trans h
  | cons x l ih =>
    cases x with
    | free n =>
      obtain ⟨h₁, h₂, h₃⟩ := h
      exact ⟨hp.trans h₁, (hsize a (Nat.le_refl a)).trans h₂, ih h₃ (hptr a (Nat.le_refl a))
        (fun x hx => hptr x (by omega)) (fun x hx => hsize x (by omega))⟩
    | live n b =>
      obtain ⟨h₁, h₂⟩ := h
      exact ⟨(hsize a (Nat.le_refl a)).trans h₁, ih h₂ hp (fun x hx => hptr x (by omega)) (fun x hx => hsize x (by omega))⟩

theorem Linked.next {x : ℕ} (h : Linked ptr size p a l) (hp : p < a) (hl : Positive l) (hx : x ∈ p :: frees a l)
    (hne : x ≠ lastFree p a l) : x < ptr x ∧ ptr x < a + total l := by
  induction l generalizing a p with
  | nil => exact absurd (List.mem_singleton.mp hx) hne
  | cons y l ih =>
    obtain ⟨hy, hl'⟩ := hl.tail
    cases y with
    | free n =>
      simp only [len_free, total_cons] at hy ⊢
      obtain ⟨h₁, h₂, h₃⟩ := h
      rcases List.mem_cons.mp hx with rfl | hx
      · omega
      · have := ih h₃ (by omega) hl' hx hne
        omega
    | live n b =>
      simp only [len_live, total_cons] at hy ⊢
      obtain ⟨h₁, h₂⟩ := h
      have := ih h₂ (by omega) hl' hx hne
      omega

theorem Ends.isChain (h : Ends ptr size e p a l) : List.IsChain (fun x y => ptr x = y) (p :: (frees a l ++ [e])) := by
  induction l generalizing a p with
  | nil =>
    rw [frees, List.nil_append, List.isChain_pair]
    exact h
  | cons x l ih =>
    cases x with
    | free n =>
      obtain ⟨h₁, h₂, h₃⟩ := h
      exact List.isChain_cons_cons.mpr ⟨h₁, ih h₃⟩
    | live n b => exact ih h.2

/-! ### The blocks tile the memory -/

theorem Linked.map_size (h : Linked ptr size p a l) : (starts a l).map size = l.map len := by
  induction l generalizing a p with
  | nil => rfl
  | cons x l ih =>
    cases x with
    | free n =>
      obtain ⟨-, h₂, h₃⟩ := h
      rw [starts, List.map_cons, List.map_cons, h₂, len_free, ih h₃]
    | live n b =>
      obtain ⟨h₁, h₂⟩ := h
      rw [starts, List.map_cons, List.map_cons, h₁, len_live, ih h₂]

theorem inside {x : ℕ} (hs : (starts a l).map size = l.map len) (hx : x ∈ starts a l) :
    a ≤ x ∧ x + size x ≤ a + total l := by
  induction l generalizing a with
  | nil => cases hx
  | cons y l ih =>
    rw [starts, List.map_cons, List.map_cons, List.cons.injEq] at hs
    rw [total_cons]
    rcases List.mem_cons.mp hx with rfl | hx
    · omega
    · have := ih hs.2 hx
      omega

theorem pairwise_starts (hs : (starts a l).map size = l.map len) :
    (starts a l).Pairwise (fun x y => x + size x ≤ y) := by
  induction l generalizing a with
  | nil => exact .nil
  | cons y l ih =>
    rw [starts, List.map_cons, List.map_cons, List.cons.injEq] at hs
    apply List.Pairwise.cons
    · intro x hx
      have := inside hs.2 hx
      omega
    · exact ih hs.2

def Coalesced (l : List Extent) : Prop := l.IsChain (fun x y => ¬(x.IsFree ∧ y.IsFree))

theorem pairwise_frees (h : Linked ptr size p a l) (hl : Positive l) (hc : Coalesced l) :
    (frees a l).Pairwise (fun x y => x + size x < y) := by
  induction l generalizing a p with
  | nil => exact .nil
  | cons x l ih =>
    obtain ⟨-, hl'⟩ := hl.tail
    cases x with
    | live n b => exact ih h.2 hl' (List.IsChain.tail hc)
    | free n =>
      obtain ⟨h₁, h₂, h₃⟩ := h
      refine List.Pairwise.cons ?_ (ih h₃ hl' (List.IsChain.tail hc))
      intro y hy
      rw [h₂]
      cases l with
      | nil => cases hy
      | cons z l =>
        cases z with
        | free m => exact absurd ⟨trivial, trivial⟩ (List.isChain_cons_cons.mp hc).1
        | live m b =>
          have hm : 0 < m := hl'.tail.1
          have := frees_ge (a := a + n + m) (l := l) hy
          omega

end Extent

end Xv6.Lib
