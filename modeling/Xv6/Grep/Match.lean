import Mathlib

namespace Xv6.Grep

open Computability

/-! ### The matcher. A pointer into a string is the rest of the string from it on. -/

mutual

def matchhere (re text : List UInt8) : Bool :=
  match re with
  | [] => true
  | c :: re =>
    if re.head? = some 42 then matchstar c re.tail text
    else if c = 36 ∧ re = [] then text = []
    else
      match text with
      | [] => false
      | b :: text => if c = 46 ∨ c = b then matchhere re text else false
termination_by (re.length, text.length, 0)
decreasing_by
  · apply Prod.Lex.left
    rw [List.length_tail, List.length_cons]
    omega
  · exact Prod.Lex.left _ _ (Nat.lt_succ_self _)

def matchstar (c : UInt8) (re text : List UInt8) : Bool :=
  if matchhere re text then true
  else
    match text with
    | [] => false
    | b :: text => if b = c ∨ c = 46 then matchstar c re text else false
termination_by (re.length, text.length, 1)
decreasing_by
  · exact Prod.Lex.right _ (Prod.Lex.right _ Nat.zero_lt_one)
  · exact Prod.Lex.right _ (Prod.Lex.left _ _ (Nat.lt_succ_self _))

end

def matchLoop (re : List UInt8) : List UInt8 → Bool
  | [] => matchhere re []
  | b :: text => if matchhere re (b :: text) then true else matchLoop re text

def matchText (re text : List UInt8) : Bool :=
  if re.head? = some 94 then matchhere re.tail text else matchLoop re text

/-! ### What a pattern means -/

inductive Atom
  | any
  | byte (b : UInt8)

inductive Item
  | one (a : Atom)
  | star (a : Atom)

def Atom.lang : Atom → Language UInt8
  | any => {v | ∃ b, v = [b]}
  | byte b => {[b]}

def Item.lang : Item → Language UInt8
  | one a => a.lang
  | star a => a.lang∗

def atom (c : UInt8) : Atom := if c = 46 then .any else .byte c

def items : List UInt8 → List Item × Bool
  | [] => ([], false)
  | [c] => if c = 36 then ([], true) else ([.one (atom c)], false)
  | c :: d :: re =>
    if d = 42 then (.star (atom c) :: (items re).1, (items re).2)
    else (.one (atom c) :: (items (d :: re)).1, (items (d :: re)).2)

def lang (is : List Item) : Language UInt8 := (is.map Item.lang).prod

def Starts (r : List Item × Bool) (text : List UInt8) : Prop :=
  ∃ v w, text = v ++ w ∧ v ∈ lang r.1 ∧ (r.2 = true → w = [])

/-! ### Membership -/

variable {c : UInt8} {re text u v : List UInt8} {is : List Item} {e : Bool}

theorem mem_atom : v ∈ (atom c).lang ↔ ∃ b, v = [b] ∧ (c = 46 ∨ c = b) := by
  unfold atom
  split_ifs with h
  · constructor
    · rintro ⟨b, rfl⟩
      exact ⟨b, rfl, .inl h⟩
    · rintro ⟨b, rfl, -⟩
      exact ⟨b, rfl⟩
  · constructor
    · intro hv
      exact ⟨c, hv, .inr rfl⟩
    · rintro ⟨b, rfl, hc⟩
      rw [hc.resolve_left h]
      rfl

theorem mem_atom_star : u ∈ (atom c).lang∗ ↔ ∀ b ∈ u, c = 46 ∨ c = b := by
  constructor
  · rintro ⟨L, rfl, hL⟩ b hb
    obtain ⟨v, hv, hbv⟩ := List.mem_flatten.mp hb
    obtain ⟨b', rfl, hc⟩ := mem_atom.mp (hL v hv)
    rw [List.mem_singleton.mp hbv]
    exact hc
  · intro hu
    refine ⟨u.map (fun b => [b]), by rw [← List.flatMap_def, List.flatMap_singleton'], ?_⟩
    intro v hv
    obtain ⟨b, hb, rfl⟩ := List.mem_map.mp hv
    exact mem_atom.mpr ⟨b, rfl, hu b hb⟩

theorem starts_nil (text : List UInt8) : Starts ([], false) text := ⟨[], text, rfl, rfl, fun h => absurd h Bool.false_ne_true⟩

theorem starts_anchor : Starts ([], true) text ↔ text = [] := by
  constructor
  · rintro ⟨v, w, rfl, hv, hw⟩
    rw [hw rfl, (Language.mem_one v).mp hv]
    rfl
  · rintro rfl
    exact ⟨[], [], rfl, rfl, fun _ => rfl⟩

theorem starts_cons {i : Item} : Starts (i :: is, e) text ↔ ∃ u v, text = u ++ v ∧ u ∈ i.lang ∧ Starts (is, e) v := by
  constructor
  · rintro ⟨v, w, rfl, hv, hw⟩
    rw [lang, List.map_cons, List.prod_cons] at hv
    obtain ⟨u, hu, v, hv, rfl⟩ := hv
    exact ⟨u, v ++ w, List.append_assoc u v w, hu, v, w, rfl, hv, hw⟩
  · rintro ⟨u, -, rfl, hu, v, w, rfl, hv, hw⟩
    refine ⟨u ++ v, w, (List.append_assoc u v w).symm, ?_, hw⟩
    rw [lang, List.map_cons, List.prod_cons]
    exact Language.append_mem_mul hu hv

theorem starts_one : Starts (.one (atom c) :: is, e) text ↔ ∃ b v, text = b :: v ∧ (c = 46 ∨ c = b) ∧ Starts (is, e) v := by
  rw [starts_cons]
  constructor
  · rintro ⟨u, v, rfl, hu, hv⟩
    obtain ⟨b, rfl, hc⟩ := mem_atom.mp hu
    exact ⟨b, v, rfl, hc, hv⟩
  · rintro ⟨b, v, rfl, hc, hv⟩
    exact ⟨[b], v, rfl, mem_atom.mpr ⟨b, rfl, hc⟩, hv⟩

theorem starts_star : Starts (.star (atom c) :: is, e) text ↔ ∃ u v, text = u ++ v ∧ (∀ b ∈ u, c = 46 ∨ c = b) ∧ Starts (is, e) v := by
  rw [starts_cons]
  simp only [Item.lang, mem_atom_star]

/-! ### The matcher and the meaning -/

theorem matchstar_iff {r : List Item × Bool} (h : ∀ text, matchhere re text = true ↔ Starts r text) :
    matchstar c re text = true ↔ ∃ u v, text = u ++ v ∧ (∀ b ∈ u, c = 46 ∨ c = b) ∧ Starts r v := by
  induction text with
  | nil =>
    rw [matchstar]
    constructor
    · intro hm
      split_ifs at hm with hhere
      exact ⟨[], [], rfl, List.forall_mem_nil _, (h []).mp hhere⟩
    · rintro ⟨u, v, huv, -, hv⟩
      rw [(List.append_eq_nil_iff.mp huv.symm).2] at hv
      rw [if_pos ((h []).mpr hv)]
  | cons b text ih =>
    rw [matchstar]
    constructor
    · intro hm
      split_ifs at hm with hhere hb
      · exact ⟨[], b :: text, rfl, List.forall_mem_nil _, (h _).mp hhere⟩
      · obtain ⟨u, v, rfl, hu, hv⟩ := ih.mp hm
        refine ⟨b :: u, v, rfl, ?_, hv⟩
        intro b' hb'
        rcases List.mem_cons.mp hb' with rfl | hb'
        · exact hb.symm.imp_right Eq.symm
        · exact hu b' hb'
    · rintro ⟨u, v, huv, hu, hv⟩
      split_ifs with hhere hb
      · rfl
      · cases u with
        | nil => exact absurd ((h _).mpr (huv ▸ hv)) hhere
        | cons b' u =>
          rw [List.cons_append] at huv
          obtain ⟨-, htext⟩ := List.cons.inj huv
          exact ih.mpr ⟨u, v, htext, fun b hb => hu b (List.mem_cons_of_mem _ hb), hv⟩
      · cases u with
        | nil => exact absurd ((h _).mpr (huv ▸ hv)) hhere
        | cons b' u =>
          rw [List.cons_append] at huv
          obtain ⟨rfl, -⟩ := List.cons.inj huv
          exact absurd ((hu b List.mem_cons_self).symm.imp_left Eq.symm) hb

theorem matchhere_nil (text : List UInt8) : matchhere [] text = true := by
  rw [matchhere]

theorem matchhere_star : matchhere (c :: 42 :: re) text = matchstar c re text := by
  rw [matchhere.eq_def]
  exact if_pos rfl

theorem matchhere_end : matchhere [36] text = decide (text = []) := by
  rw [matchhere.eq_def]
  dsimp only
  rw [List.head?_nil, if_neg (Option.some_ne_none _).symm, if_pos ⟨rfl, rfl⟩]

theorem matchhere_one (hstar : re.head? ≠ some 42) (hend : ¬(c = 36 ∧ re = [])) :
    matchhere (c :: re) text = true ↔ ∃ b v, text = b :: v ∧ (c = 46 ∨ c = b) ∧ matchhere re v = true := by
  rw [matchhere.eq_def]
  dsimp only
  rw [if_neg hstar, if_neg hend]
  cases text with
  | nil => simp
  | cons b text =>
    constructor
    · intro h
      dsimp only at h
      split_ifs at h with hb
      exact ⟨b, text, rfl, hb, h⟩
    · rintro ⟨b', v, heq, hb, hv⟩
      obtain ⟨rfl, rfl⟩ := List.cons.inj heq
      dsimp only
      rw [if_pos hb, hv]

theorem matchhere_iff (re text : List UInt8) : matchhere re text = true ↔ Starts (items re) text := by
  fun_induction items re generalizing text with
  | case1 => exact iff_of_true (matchhere_nil text) (starts_nil text)
  | case2 =>
    rw [matchhere_end, decide_eq_true_iff, starts_anchor]
  | case3 c hc =>
    have hstar : ([] : List UInt8).head? ≠ some 42 := (Option.some_ne_none _).symm
    rw [matchhere_one hstar (fun h => hc h.1), starts_one]
    simp only [matchhere_nil, starts_nil]
  | case4 c re ih =>
    rw [matchhere_star, matchstar_iff ih, starts_star]
  | case5 c d re hd ih =>
    have hstar : (d :: re).head? ≠ some 42 := fun h => hd (Option.some.inj h)
    rw [matchhere_one hstar (fun h => List.cons_ne_nil _ _ h.2), starts_one]
    simp only [ih]

theorem matchLoop_iff (re text : List UInt8) : matchLoop re text = true ↔ ∃ u v, text = u ++ v ∧ matchhere re v = true := by
  induction text with
  | nil =>
    constructor
    · intro h
      exact ⟨[], [], rfl, h⟩
    · rintro ⟨u, v, huv, hv⟩
      rw [(List.append_eq_nil_iff.mp huv.symm).2] at hv
      exact hv
  | cons b text ih =>
    rw [matchLoop]
    constructor
    · intro h
      split_ifs at h with hhere
      · exact ⟨[], b :: text, rfl, hhere⟩
      · obtain ⟨u, v, rfl, hv⟩ := ih.mp h
        exact ⟨b :: u, v, rfl, hv⟩
    · rintro ⟨u, v, huv, hv⟩
      split_ifs with hhere
      · rfl
      · cases u with
        | nil => exact absurd (huv ▸ hv) hhere
        | cons b' u => exact ih.mpr ⟨u, v, (List.cons.inj huv).2, hv⟩

def body (re : List UInt8) : List UInt8 := if re.head? = some 94 then re.tail else re

/-- `match` finds exactly the texts with a part in the language of the pattern's items, at the start under `^` and at
the end under the anchor. -/
theorem matchText_iff (re text : List UInt8) : matchText re text = true ↔
    ∃ u v w, text = u ++ v ++ w ∧ v ∈ lang (items (body re)).1 ∧ (re.head? = some 94 → u = []) ∧
      ((items (body re)).2 = true → w = []) := by
  unfold matchText body
  by_cases hre : re.head? = some 94
  · rw [if_pos hre, if_pos hre, matchhere_iff]
    constructor
    · rintro ⟨v, w, rfl, hv, hw⟩
      exact ⟨[], v, w, rfl, hv, fun _ => rfl, hw⟩
    · rintro ⟨u, v, w, rfl, hv, hu, hw⟩
      rw [hu hre]
      exact ⟨v, w, rfl, hv, hw⟩
  · rw [if_neg hre, if_neg hre, matchLoop_iff]
    constructor
    · rintro ⟨u, v, rfl, hv⟩
      obtain ⟨v, w, rfl, hv, hw⟩ := (matchhere_iff re v).mp hv
      exact ⟨u, v, w, (List.append_assoc u v w).symm, hv, fun h => absurd h hre, hw⟩
    · rintro ⟨u, v, w, rfl, hv, -, hw⟩
      exact ⟨u, v ++ w, List.append_assoc u v w, (matchhere_iff re (v ++ w)).mpr ⟨v, w, rfl, hv, hw⟩⟩

end Xv6.Grep
