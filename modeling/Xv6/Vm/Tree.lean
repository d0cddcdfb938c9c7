import Xv6.Vm.Memory

namespace Xv6.Vm.Ram

open Lib

variable {word word' : ℕ → Fin 512 → ℕ} {root page p q d va : ℕ} {i j k : Fin 512}
  {l m : List (Fin 512)} {s t : Memory}

def child (word : ℕ → Fin 512 → ℕ) (page : ℕ) (i : Fin 512) : Option ℕ :=
  if word page i &&& pteV ≠ 0 then some (pte2pa (word page i)) else none

def nodeAt (word : ℕ → Fin 512 → ℕ) (root : ℕ) (l : List (Fin 512)) : Option ℕ :=
  l.foldlM (child word) root

def slot (word : ℕ → Fin 512 → ℕ) (root : ℕ) (l : List (Fin 512)) (k : Fin 512) : Option ℕ :=
  (nodeAt word root l).bind (fun p => if word p k &&& pteV ≠ 0 then some (word p k) else none)

def indices (va : ℕ) : ℕ → List (Fin 512)
  | 0 => []
  | level + 1 => px (level + 1) va :: indices va level

structure Shape (word : ℕ → Fin 512 → ℕ) (root d : ℕ) : Prop where
  unshared : ∀ l m p, l.length ≤ d → m.length ≤ d → nodeAt word root l = some p →
    nodeAt word root m = some p → l = m
  pointer : ∀ l p i, l.length < d → nodeAt word root l = some p → word p i &&& pteV ≠ 0 →
    word p i &&& (pteR ||| pteW ||| pteX) = 0

structure Tree (s : Memory) (root : ℕ) : Prop where
  shape : Shape s.word root 2
  low : ∀ i : Fin 512, 256 ≤ i.val → child s.word root i = none
  owned : ∀ l p, l.length ≤ 2 → nodeAt s.word root l = some p → Freeable s.kend p ∧ p ∉ s.freelist

structure FreeList (s : Memory) : Prop where
  nodup : s.freelist.Nodup
  freeable : ∀ p ∈ s.freelist, Freeable s.kend p

structure Keeps (s t : Memory) (root : ℕ) : Prop where
  tree : Tree t root
  kend : t.kend = s.kend
  slots : ∀ m k, m.length = 2 → slot t.word root m k = slot s.word root m k

@[simp] theorem nodeAt_nil : nodeAt word root [] = some root := rfl

theorem nodeAt_cons : nodeAt word root (i :: l) = (child word root i).bind (nodeAt word · l) := rfl

theorem nodeAt_snoc : nodeAt word root (l ++ [i]) = (nodeAt word root l).bind (child word · i) := by
  unfold nodeAt
  rw [List.foldlM_append]
  cases l.foldlM (child word) root with
  | none => rfl
  | some p => simp

theorem length_indices : ∀ level, (indices va level).length = level
  | 0 => rfl
  | level + 1 => congrArg Nat.succ (length_indices level)

theorem nodeAt_congr (h : ∀ m p, m.length < d → nodeAt word root m = some p → word' p = word p)
    (hl : l.length ≤ d) : nodeAt word' root l = nodeAt word root l := by
  induction l using List.reverseRecOn with
  | nil => rfl
  | append_singleton l i ih =>
    rw [List.length_append, List.length_singleton] at hl
    rw [nodeAt_snoc, nodeAt_snoc, ih (by omega)]
    cases hp : nodeAt word root l with
    | none => rfl
    | some p =>
      simp only [Option.bind_some, child, h l p hl hp]

theorem slot_of_nodeAt (h : nodeAt word root l = some p) :
    slot word root l k = if word p k &&& pteV ≠ 0 then some (word p k) else none := by
  rw [slot, h, Option.bind_some]

theorem Freeable.lt_two_pow {kend : ℕ} (h : Freeable kend p) : p < 2 ^ 64 :=
  h.2.2.trans (by decide)

theorem child_eq_none (h : word page i &&& pteV = 0) : child word page i = none :=
  if_neg (not_not.mpr h)

theorem child_pointer {kend : ℕ} (h : Freeable kend p) (hw : word page i = pa2pte p ||| pteV) :
    child word page i = some p := by
  rw [child, hw, if_pos and_pteV_or, pte2pa_pte h.lt_two_pow h.1 (by decide)]

namespace Shape

theorem index_eq (h : Shape word root d) (hl : l.length < d) (hm : m.length < d)
    (hil : nodeAt word root (i :: l) = some p) (hjm : nodeAt word root (j :: m) = some p) : i = j :=
  (List.cons.inj (h.unshared (i :: l) (j :: m) p hl hm hil hjm)).1

theorem ne_root (h : Shape word root d) (hl : l.length < d) (hp : nodeAt word root (i :: l) = some p) :
    p ≠ root := by
  rintro rfl
  cases h.unshared (i :: l) [] p hl (Nat.zero_le d) hp nodeAt_nil

theorem sub (h : Shape word root (d + 1)) (hp : child word root i = some p) : Shape word p d where
  unshared l m q hl hm hlq hmq := by
    have hcons : ∀ l', nodeAt word p l' = nodeAt word root (i :: l') := by
      intro l'
      rw [nodeAt_cons, hp, Option.bind_some]
    rw [hcons] at hlq hmq
    exact (List.cons.inj (h.unshared _ _ q (by simpa using hl) (by simpa using hm) hlq hmq)).2
  pointer l q j hl hlq hv := by
    apply h.pointer (i :: l) q j (by simpa using hl) _ hv
    rw [nodeAt_cons, hp, Option.bind_some]
    exact hlq

theorem congr (h : Shape word root d)
    (hw : ∀ l p, l.length ≤ d → nodeAt word root l = some p → word' p = word p) :
    Shape word' root d where
  unshared l m p hl hm hlp hmp := by
    have hn := fun l' hl' => nodeAt_congr (l := l') (fun m p hm => hw m p (Nat.le_of_lt hm)) hl'
    rw [hn l hl] at hlp
    rw [hn m hm] at hmp
    exact h.unshared l m p hl hm hlp hmp
  pointer l p i hl hlp hv := by
    rw [nodeAt_congr (fun m p hm => hw m p (Nat.le_of_lt hm)) (Nat.le_of_lt hl)] at hlp
    rw [hw l p (Nat.le_of_lt hl) hlp] at hv ⊢
    exact h.pointer l p i hl hlp hv

end Shape

section Link

def Memory.link (s : Memory) (q : ℕ) (i : Fin 512) (page : ℕ) : Memory :=
  (s.fill page 0).store q i (pa2pte page ||| pteV)

theorem link_word (hne : page ≠ q) : (s.link q i page).word p k =
    if p = q ∧ k = i then pa2pte page ||| pteV else if p = page then 0 else s.word p k := by
  simp only [Memory.link, Memory.store, Memory.fill]
  by_cases hp : p = q
  · subst hp
    by_cases hk : k = i
    · subst hk
      simp
    · simp [hk, hne.symm]
  · rw [Function.update_of_ne hp]
    by_cases hpage : p = page
    · subst hpage
      simp [hp]
    · simp [hp, hpage]

variable {kend : ℕ}

theorem child_link (hne : page ≠ q) (hf : Freeable kend page) :
    child (s.link q i page).word p k =
      if p = q ∧ k = i then some page else if p = page then none else child s.word p k := by
  by_cases hpi : p = q ∧ k = i
  · rw [if_pos hpi]
    apply child_pointer hf
    rw [link_word hne, if_pos hpi]
  · rw [if_neg hpi]
    by_cases hp : p = page
    · rw [if_pos hp]
      apply child_eq_none
      rw [link_word hne, if_neg hpi, if_pos hp, Nat.zero_and]
    · rw [if_neg hp, child, child, link_word hne, if_neg hpi, if_neg hp]

theorem nodeAt_link (h : Shape s.word root 2) (hl : l.length < 2) (hq : nodeAt s.word root l = some q)
    (hi : child s.word q i = none) (hf : Freeable kend page)
    (hnew : ∀ m, m.length ≤ 2 → nodeAt s.word root m ≠ some page) (hm : m.length ≤ 2) :
    nodeAt (s.link q i page).word root m = if m = l ++ [i] then some page else nodeAt s.word root m := by
  have hne : page ≠ q := by
    rintro rfl
    exact hnew l (Nat.le_of_lt hl) hq
  induction m using List.reverseRecOn with
  | nil => simp
  | append_singleton m j ih =>
    rw [List.length_append, List.length_singleton] at hm
    rw [nodeAt_snoc, nodeAt_snoc, ih (by omega)]
    by_cases hml : m = l ++ [i]
    · -- below the new page there is nothing, before and after
      have hlen : m ++ [j] ≠ l ++ [i] := by
        rw [hml]
        intro he
        have := congrArg List.length he
        simp at this
      have hnone : nodeAt s.word root m = none := by
        rw [hml, nodeAt_snoc, hq, Option.bind_some, hi]
      rw [if_pos hml, if_neg hlen, hnone, Option.bind_some, Option.bind_none, child_link hne hf,
        if_neg (fun he => hne he.1), if_pos rfl]
    · rw [if_neg hml]
      cases hr : nodeAt s.word root m with
      | none =>
        have hlen : m ++ [j] ≠ l ++ [i] := by
          intro he
          rw [(List.append_inj' he rfl).1, hq] at hr
          cases hr
        rw [if_neg hlen]
        rfl
      | some r =>
        have hrp : r ≠ page := by
          rintro rfl
          exact hnew m (by omega) hr
        have hiff : (r = q ∧ j = i) ↔ m ++ [j] = l ++ [i] := by
          constructor
          · rintro ⟨rfl, rfl⟩
            rw [h.unshared m l r (by omega) (by omega) hr hq]
          · intro he
            obtain ⟨hml', hji⟩ := List.append_inj' he rfl
            rw [hml', hq] at hr
            exact ⟨(Option.some.inj hr).symm, (List.cons.inj hji).1⟩
        rw [Option.bind_some, Option.bind_some, child_link hne hf]
        simp only [hiff, hrp, ↓reduceIte]

theorem Tree.link (h : Tree s root) (hfree : FreeList s) (hl : l.length < 2)
    (hq : nodeAt s.word root l = some q) (hi : child s.word q i = none) (hlow : l = [] → i.val < 256)
    (hw : t.word = (s.link q i page).word) (hlist : s.freelist = page :: t.freelist)
    (hk : t.kend = s.kend) : Keeps s t root := by
  have hmem : page ∈ s.freelist := by rw [hlist]; exact List.mem_cons_self
  have hf : Freeable s.kend page := hfree.freeable page hmem
  have hnew : ∀ m, m.length ≤ 2 → nodeAt s.word root m ≠ some page :=
    fun m hm hp => (h.owned m page hm hp).2 hmem
  have hne : page ≠ q := by
    rintro rfl
    exact hnew l (Nat.le_of_lt hl) hq
  have hnode : ∀ m, m.length ≤ 2 →
      nodeAt t.word root m = if m = l ++ [i] then some page else nodeAt s.word root m := by
    intro m hm
    rw [hw]
    exact nodeAt_link h.shape hl hq hi hf hnew hm
  have hpage : page ∉ t.freelist := by
    have hnd := hfree.nodup
    rw [hlist] at hnd
    exact (List.nodup_cons.mp hnd).1
  constructor
  · constructor
    · constructor
      · intro a b p ha hb hap hbp
        rw [hnode a ha] at hap
        rw [hnode b hb] at hbp
        split_ifs at hap hbp with hal hbl hbl
        · rw [hal, hbl]
        · cases hap
          exact absurd hbp (hnew b hb)
        · cases hbp
          exact absurd hap (hnew a ha)
        · exact h.shape.unshared a b p ha hb hap hbp
      · intro a p j ha hap hv
        rw [hnode a (Nat.le_of_lt ha)] at hap
        rw [hw, link_word hne] at hv ⊢
        split_ifs at hv ⊢ with hpq hp
        · have hflags : pteFlags (pa2pte page ||| pteV) = pteV := pteFlags_pte (by decide)
          rw [← pteFlags_and (by decide), hflags]
          decide
        · exact Nat.zero_and _
        · rw [if_neg] at hap
          · exact h.shape.pointer a p j ha hap hv
          · rintro rfl
            rw [if_pos rfl] at hap
            exact hp (Option.some.inj hap).symm
    · intro j hj
      rw [hw, child_link hne hf]
      split_ifs with hr hp
      · exfalso
        obtain ⟨rfl, rfl⟩ := hr
        have hnil : l = [] := h.shape.unshared l [] root (Nat.le_of_lt hl) (Nat.zero_le 2) hq rfl
        exact absurd (hlow hnil) (by omega)
      · rfl
      · exact h.low j hj
    · intro a p ha hap
      rw [hnode a ha] at hap
      rw [hk]
      split_ifs at hap with hal
      · cases hap
        exact ⟨hf, hpage⟩
      · obtain ⟨hfp, hnot⟩ := h.owned a p ha hap
        rw [hlist] at hnot
        exact ⟨hfp, fun hin => hnot (List.mem_cons_of_mem _ hin)⟩
  · exact hk
  · intro m k hm
    rw [slot, slot, hnode m (by omega)]
    by_cases hml : m = l ++ [i]
    · have hzero : (s.link q i page).word page k = 0 := by
        rw [link_word hne, if_neg (fun he => hne he.1), if_pos rfl]
      rw [if_pos hml, Option.bind_some, hw, hzero, hml, nodeAt_snoc, hq, Option.bind_some, hi,
        Nat.zero_and]
      rfl
    · rw [if_neg hml]
      cases hr : nodeAt s.word root m with
      | none => rfl
      | some r =>
        have hrq : r ≠ q := by
          rintro rfl
          rw [h.shape.unshared m l r (by omega) (by omega) hr hq] at hm
          omega
        have hrp : r ≠ page := by
          rintro rfl
          exact hnew m (by omega) hr
        have hsame : (s.link q i page).word r k = s.word r k := by
          rw [link_word hne, if_neg (fun he => hrq he.1), if_neg hrp]
        rw [Option.bind_some, Option.bind_some, hw, hsame]

end Link

theorem Tree.frame (h : Tree s root) (hk : t.kend = s.kend)
    (hw : ∀ l p, l.length ≤ 2 → nodeAt s.word root l = some p → t.word p = s.word p ∧ p ∉ t.freelist) :
    Keeps s t root := by
  have hnode : ∀ l, l.length ≤ 2 → nodeAt t.word root l = nodeAt s.word root l :=
    fun l hl => nodeAt_congr (fun m p hm hp => (hw m p (Nat.le_of_lt hm) hp).1) hl
  have hroot : t.word root = s.word root := (hw [] root (Nat.zero_le 2) rfl).1
  constructor
  · constructor
    · exact h.shape.congr (fun l p hl hp => (hw l p hl hp).1)
    · intro i hi
      rw [child, hroot]
      exact h.low i hi
    · intro l p hl hp
      rw [hnode l hl] at hp
      rw [hk]
      exact ⟨(h.owned l p hl hp).1, (hw l p hl hp).2⟩
  · exact hk
  · intro m k hm
    rw [slot, slot, hnode m (by omega)]
    cases hr : nodeAt s.word root m with
    | none => rfl
    | some r => rw [Option.bind_some, Option.bind_some, (hw m r (by omega) hr).1]

theorem Tree.word_store (h : Tree s root) (hl : l.length = 2) (hq : nodeAt s.word root l = some q)
    (k : Fin 512) (w : ℕ) (hm : m.length < 2) (hp : nodeAt s.word root m = some p) :
    (s.store q k w).word p = s.word p := by
  apply Function.update_of_ne
  rintro rfl
  rw [h.shape.unshared m l p (by omega) (by omega) hp hq] at hm
  omega

theorem Tree.nodeAt_store (h : Tree s root) (hl : l.length = 2) (hq : nodeAt s.word root l = some q)
    (k : Fin 512) (w : ℕ) (hm : m.length ≤ 2) :
    nodeAt (s.store q k w).word root m = nodeAt s.word root m :=
  nodeAt_congr (fun _ _ => h.word_store hl hq k w) hm

theorem Tree.setSlot (h : Tree s root) (hl : l.length = 2) (hq : nodeAt s.word root l = some q)
    (k : Fin 512) (w : ℕ) : Tree (s.store q k w) root ∧
      ∀ m j, m.length = 2 → slot (s.store q k w).word root m j =
        if m = l ∧ j = k then (if w &&& pteV ≠ 0 then some w else none) else slot s.word root m j := by
  have hsame : ∀ m p, m.length < 2 → nodeAt s.word root m = some p → (s.store q k w).word p = s.word p :=
    fun _ _ => h.word_store hl hq k w
  have hnode : ∀ m, m.length ≤ 2 → nodeAt (s.store q k w).word root m = nodeAt s.word root m :=
    fun _ => h.nodeAt_store hl hq k w
  constructor
  · constructor
    · constructor
      · intro a b p ha hb hap hbp
        rw [hnode a ha] at hap
        rw [hnode b hb] at hbp
        exact h.shape.unshared a b p ha hb hap hbp
      · intro a p i ha hap hv
        rw [hnode a (Nat.le_of_lt ha)] at hap
        rw [hsame a p ha hap] at hv ⊢
        exact h.shape.pointer a p i ha hap hv
    · intro i hi
      rw [child, hsame [] root (by decide) rfl]
      exact h.low i hi
    · intro a p ha hap
      rw [hnode a ha] at hap
      exact h.owned a p ha hap
  · intro m j hm
    rw [slot, slot, hnode m (by omega)]
    cases hr : nodeAt s.word root m with
    | none =>
      rw [if_neg]
      · rfl
      · rintro ⟨rfl, -⟩
        rw [hq] at hr
        cases hr
    | some r =>
      have hiff : m = l ↔ r = q := by
        constructor
        · rintro rfl
          exact Option.some.inj (hr.symm.trans hq)
        · rintro rfl
          exact h.shape.unshared m l r (by omega) (by omega) hr hq
      simp only [Option.bind_some, hiff, Memory.store]
      by_cases hrq : r = q
      · subst hrq
        by_cases hj : j = k
        · subst hj
          simp
        · simp [hj]
      · simp [hrq]

end Xv6.Vm.Ram
