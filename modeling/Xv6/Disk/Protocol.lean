import Mathlib.Algebra.BigOperators.Group.Finset.Basic
import Mathlib.Data.List.Nodup
import Mathlib.Data.Set.Card
import Mathlib.Data.Set.Finite.Lattice
import Mathlib.Tactic.Tauto
import Xv6.Disk.Machine
import Xv6.Lib.Transition

set_option linter.unusedSectionVars false

namespace Xv6.Disk

open Lib Transition
open Function (update update_of_ne update_self update_apply update_eq_self update_idem)

variable {P : Type}

def Pc.triple : Pc → List (Fin num)
  | .flight i j k => [i, j, k]
  | _ => []

structure Chain (desc : Fin num → Desc P) (p : P) (i j k : Fin num) : Prop where
  first : (desc i).hasNext = true ∧ (desc i).next = j
  second : (desc j).addr = .data p ∧ (desc j).hasNext = true ∧ (desc j).next = k
  third : (desc k).addr = .status i ∧ (desc k).hasNext = false
  ne : i ≠ j ∧ i ≠ k ∧ j ≠ k

structure Inv (s : St P) (q u : List (Fin num)) : Prop where
  ok : s.panicked = none
  avail : RingHolds idxMod s.availRing s.taken s.availIdx q
  used : RingHolds idxMod s.usedRing s.seenIdx s.usedIdx u
  chain : ∀ p i j k, s.pc p = .flight i j k → Chain s.desc p i j k
  busy : ∀ d, s.free d = false ↔ ∃ p, d ∈ (s.pc p).triple
  apart : ∀ p p' d, d ∈ (s.pc p).triple → d ∈ (s.pc p').triple → p = p'
  nodup : (q ++ s.pending ++ u).Nodup
  heads : ∀ h, h ∈ q ++ s.pending ++ u ↔ ∃ p j k, s.pc p = .flight h j k ∧ s.disk p = true
  info : ∀ p i j k, s.pc p = .flight i j k → s.disk p = true → s.info i = some p
  status : ∀ h ∈ u, s.status h = 0
  served : ∀ p i j k, s.pc p = .flight i j k → s.disk p = false ∨ i ∈ u → s.served p = true
  log : s.completions.map some = s.processed.map some ++ u.map s.info

theorem num_dvd : num ∣ idxMod := by decide

section Steps

variable [DecidableEq P] {s : St P} {q u : List (Fin num)} {p : P} {i j k : Fin num}

theorem inv_init : Inv (St.init P) [] [] where
  ok := rfl
  avail := ⟨show 0 < idxMod by decide, rfl, nofun⟩
  used := ⟨show 0 < idxMod by decide, rfl, nofun⟩
  chain _ _ _ _ h := nomatch h
  busy d := ⟨nofun, fun ⟨_, h⟩ => (nomatch h)⟩
  apart _ _ _ h := nomatch h
  nodup := List.nodup_nil
  heads h := ⟨nofun, fun ⟨_, _, _, h, _⟩ => (nomatch h)⟩
  info _ _ _ _ h := nomatch h
  status _ h := nomatch h
  served _ _ _ _ h := nomatch h
  log := rfl

def mark (s : St P) (i j k : Fin num) : St P :=
  { s with free := update (update (update s.free i false) j false) k false }

namespace Inv

theorem length_le (h : Inv s q u) : q.length + s.pending.length + u.length ≤ num := by
  have := h.nodup.length_le_card
  rw [Fintype.card_fin, List.length_append, List.length_append] at this
  exact this

theorem length_lt (h : Inv s q u) : q.length < idxMod ∧ u.length < idxMod := by
  have hlen := h.length_le
  have hnum : num < idxMod := by decide
  omega

theorem head_unique {p' : P} {j' k' : Fin num} (h : Inv s q u) (hp : s.pc p = .flight i j k) (hp' : s.pc p' = .flight i j' k') :
    p = p' := by
  apply h.apart p p' i
  · rw [hp]
    exact List.mem_cons_self
  · rw [hp']
    exact List.mem_cons_self

/-! ### Taking descriptors -/

theorem allocDesc_cases (s : St P) : (s.allocDesc = none) ∨
    ∃ i, s.free i = true ∧ s.allocDesc = some ({ s with free := update s.free i false }, i) := by
  unfold St.allocDesc
  cases hf : (List.finRange num).find? s.free with
  | none => exact .inl rfl
  | some i => exact .inr ⟨i, List.find?_some hf, rfl⟩

theorem update_update_true {f : Fin num → Bool} (hi : f i = true) :
    update (update f i false) i true = f := by
  rw [update_idem, ← hi, update_eq_self]

theorem alloc3Desc_cases (s : St P) :
    (∃ desc, s.alloc3Desc = .ok ({ s with desc := desc }, none) ∧ ∀ d, s.free d = false → desc d = s.desc d) ∨
    ∃ i j k, (s.free i = true ∧ s.free j = true ∧ s.free k = true) ∧ (i ≠ j ∧ i ≠ k ∧ j ≠ k) ∧
      s.alloc3Desc = .ok (mark s i j k, some (i, j, k)) := by
  have hkeep {d i : Fin num} {desc : Fin num → Desc P} (hi : s.free i = true) (hd : s.free d = false) :
      update desc i .zero d = desc d := by
    apply update_of_ne
    rintro rfl
    rw [hi] at hd
    cases hd
  rcases allocDesc_cases s with h₁ | ⟨i, hi, h₁⟩
  · refine .inl ⟨s.desc, ?_, fun _ _ => rfl⟩
    rw [St.alloc3Desc, h₁]
  · rcases allocDesc_cases { s with free := update s.free i false } with h₂ | ⟨j, hj, h₂⟩
    · refine .inl ⟨update s.desc i .zero, ?_, fun d hd => hkeep hi hd⟩
      rw [St.alloc3Desc, h₁]
      dsimp only
      rw [h₂]
      dsimp only
      rw [St.freeDesc, dif_pos i.isLt, if_neg (by simp)]
      dsimp only
      rw [update_update_true hi]
      rfl
    · have hij : i ≠ j := by
        rintro rfl
        simp at hj
      have hfj : s.free j = true := by
        dsimp only at hj
        rwa [update_of_ne hij.symm] at hj
      rcases allocDesc_cases { s with free := update (update s.free i false) j false } with h₃ | ⟨k, hk, h₃⟩
      · refine .inl ⟨update (update s.desc i .zero) j .zero, ?_, fun d hd => ?_⟩
        · rw [St.alloc3Desc, h₁]
          dsimp only
          rw [h₂]
          dsimp only
          rw [h₃]
          dsimp only
          rw [St.freeDesc, dif_pos i.isLt, if_neg (by simp [update_of_ne hij])]
          change (St.freeDesc _ j >>= _) = _
          rw [St.freeDesc, dif_pos j.isLt, if_neg (by simp [update_of_ne hij.symm])]
          have hfree : update (update (update (update s.free i false) j false) i true)
              j true = s.free := by
            funext d
            simp only [update_apply]
            split_ifs with hdj hdi
            · rw [hdj, hfj]
            · rw [hdi, hi]
            · rfl
          exact congrArg (fun f => (Except.ok ({ s with
            desc := update (update s.desc i .zero) j .zero, free := f }, none) :
              Except String (St P × Option (Fin num × Fin num × Fin num)))) hfree
        · rw [hkeep hfj hd, hkeep hi hd]
      · have hik : i ≠ k ∧ j ≠ k := by
          constructor <;> rintro rfl <;> simp [update_of_ne hij] at hk
        refine .inr ⟨i, j, k, ⟨hi, hfj, ?_⟩, ⟨hij, hik.1, hik.2⟩, ?_⟩
        · dsimp only at hk
          rwa [update_of_ne hik.2.symm, update_of_ne hik.1.symm] at hk
        · rw [St.alloc3Desc, h₁]
          dsimp only
          rw [h₂]
          dsimp only
          rw [h₃]
          rfl

/-! ### Submitting a request -/

theorem wait {desc : Fin num → Desc P} (h : Inv s q u) (hp : s.pc p = .idle ∨ s.pc p = .waiting)
    (hdesc : ∀ d, s.free d = false → desc d = s.desc d) :
    Inv { s with desc := desc, pc := update s.pc p .waiting } q u := by
  have hpc : ∀ p', (update s.pc p .waiting p').triple = (s.pc p').triple := by
    intro p'
    by_cases hp' : p' = p
    · subst hp'
      rw [update_self]
      rcases hp with hp | hp <;> rw [hp] <;> rfl
    · rw [update_of_ne hp']
  have hflight : ∀ p' i j k, update s.pc p .waiting p' = .flight i j k ↔ s.pc p' = .flight i j k := by
    intro p' i j k
    by_cases hp' : p' = p
    · subst hp'
      rw [update_self]
      rcases hp with hp | hp <;> rw [hp] <;> simp
    · rw [update_of_ne hp']
  refine ⟨h.ok, h.avail, h.used, ?_, ?_, ?_, h.nodup, ?_, ?_, h.status, ?_, h.log⟩
  · intro p' i j k hf
    have hf' := (hflight p' i j k).mp hf
    have hbusy : ∀ d ∈ [i, j, k], desc d = s.desc d := by
      intro d hd
      apply hdesc
      rw [h.busy]
      refine ⟨p', ?_⟩
      rw [hf']
      exact hd
    obtain ⟨h₁, h₂, h₃, h₄⟩ := h.chain p' i j k hf'
    constructor
    · dsimp only
      rw [hbusy i (by simp)]
      exact h₁
    · dsimp only
      rw [hbusy j (by simp)]
      exact h₂
    · dsimp only
      rw [hbusy k (by simp)]
      exact h₃
    · exact h₄
  · intro d
    simp only [hpc]
    exact h.busy d
  · intro p' p'' d
    simp only [hpc]
    exact h.apart p' p'' d
  · intro d
    simp only [hflight]
    exact h.heads d
  · intro p' i j k
    simp only [hflight]
    exact h.info p' i j k
  · intro p' i j k
    simp only [hflight]
    exact h.served p' i j k

theorem submit {write : Bool} (h : Inv s q u) (hp : s.pc p = .idle ∨ s.pc p = .waiting)
    (hfree : s.free i = true ∧ s.free j = true ∧ s.free k = true) (hne : i ≠ j ∧ i ≠ k ∧ j ≠ k) :
    Inv ((mark s i j k).submit p write i j k) (q ++ [i]) u := by
  have hidle : (s.pc p).triple = [] := by rcases hp with hp | hp <;> rw [hp] <;> rfl
  have hnone : ∀ i j k, s.pc p ≠ .flight i j k := by
    intro i j k hf
    rw [hf] at hidle
    cases hidle
  -- the descriptors of the other requests are not among the new ones
  have hnew : ∀ p' d, d ∈ (s.pc p').triple → d ≠ i ∧ d ≠ j ∧ d ≠ k := by
    intro p' d hd
    have hbusy := (h.busy d).mpr ⟨p', hd⟩
    refine ⟨?_, ?_, ?_⟩ <;> rintro rfl
    · rw [hfree.1] at hbusy
      cases hbusy
    · rw [hfree.2.1] at hbusy
      cases hbusy
    · rw [hfree.2.2] at hbusy
      cases hbusy
  have hnot : i ∉ q ++ s.pending ++ u := by
    intro hi
    obtain ⟨p', j', k', hf, -⟩ := (h.heads i).mp hi
    exact (hnew p' i (by rw [hf]; exact List.mem_cons_self)).1 rfl
  have hnodup : (q ++ [i] ++ s.pending ++ u).Nodup := by
    have hperm : (q ++ [i] ++ s.pending ++ u).Perm (i :: (q ++ s.pending ++ u)) := by
      simp only [List.append_assoc, List.singleton_append]
      exact List.perm_middle
    exact hperm.nodup_iff.mpr (List.nodup_cons.mpr ⟨hnot, h.nodup⟩)
  have hlen : q.length < num := by
    have := hnodup.length_le_card
    rw [Fintype.card_fin] at this
    simp only [List.length_append, List.length_singleton] at this
    omega
  have hother : ∀ {p'}, p' ≠ p → update s.pc p (.flight i j k) p' = s.pc p' := fun hp' => update_of_ne hp' _ _
  refine ⟨h.ok, h.avail.push num_dvd hlen, h.used, ?_, ?_, ?_, hnodup, ?_, ?_, ?_, ?_, ?_⟩
  · intro p' i' j' k' hf
    by_cases hp' : p' = p
    · subst hp'
      simp only [St.submit, mark, update_self, Pc.flight.injEq] at hf
      obtain ⟨rfl, rfl, rfl⟩ := hf
      refine ⟨?_, ?_, ?_, hne⟩ <;>
        simp only [St.submit, mark, update_self, update_of_ne hne.1, update_of_ne hne.2.1,
          update_of_ne hne.2.2, and_self]
    · have hf' : s.pc p' = .flight i' j' k' := (hother hp').symm.trans hf
      have hdesc : ∀ d ∈ [i', j', k'], ((mark s i j k).submit p write i j k).desc d = s.desc d := by
        intro d hd
        obtain ⟨h₁, h₂, h₃⟩ := hnew p' d (by rw [hf']; exact hd)
        simp only [St.submit, mark, update_of_ne h₁, update_of_ne h₂, update_of_ne h₃]
      obtain ⟨h₁, h₂, h₃, h₄⟩ := h.chain p' i' j' k' hf'
      refine ⟨?_, ?_, ?_, h₄⟩
      · rw [hdesc i' (by simp)]
        exact h₁
      · rw [hdesc j' (by simp)]
        exact h₂
      · rw [hdesc k' (by simp)]
        exact h₃
  · intro d
    dsimp only [St.submit, mark]
    constructor
    · intro hd
      by_cases hin : d ∈ [i, j, k]
      · refine ⟨p, ?_⟩
        rw [update_self]
        exact hin
      · simp only [List.mem_cons, List.not_mem_nil, or_false, not_or] at hin
        rw [update_of_ne hin.2.2, update_of_ne hin.2.1, update_of_ne hin.1] at hd
        obtain ⟨p', hp'⟩ := (h.busy d).mp hd
        have hpp : p' ≠ p := by
          rintro rfl
          rw [hidle] at hp'
          cases hp'
        refine ⟨p', ?_⟩
        rw [hother hpp]
        exact hp'
    · rintro ⟨p', hd⟩
      by_cases hp' : p' = p
      · subst hp'
        rw [update_self] at hd
        simp only [Pc.triple, List.mem_cons, List.not_mem_nil, or_false] at hd
        simp only [update_apply]
        rcases hd with rfl | rfl | rfl <;> simp
      · rw [hother hp'] at hd
        obtain ⟨h₁, h₂, h₃⟩ := hnew p' d hd
        rw [update_of_ne h₃, update_of_ne h₂, update_of_ne h₁, h.busy]
        exact ⟨p', hd⟩
  · intro p' p'' d hd hd'
    dsimp only [St.submit, mark] at hd hd'
    by_cases hp' : p' = p <;> by_cases hp'' : p'' = p
    · rw [hp', hp'']
    · subst hp'
      rw [update_self] at hd
      rw [hother hp''] at hd'
      have := hnew p'' d hd'
      simp only [Pc.triple, List.mem_cons, List.not_mem_nil, or_false] at hd
      tauto
    · subst hp''
      rw [update_self] at hd'
      rw [hother hp'] at hd
      have := hnew p' d hd
      simp only [Pc.triple, List.mem_cons, List.not_mem_nil, or_false] at hd'
      tauto
    · rw [hother hp'] at hd
      rw [hother hp''] at hd'
      exact h.apart p' p'' d hd hd'
  · intro d
    dsimp only [St.submit, mark]
    constructor
    · intro hd
      by_cases hdi : d = i
      · subst hdi
        exact ⟨p, j, k, update_self _ _ _, update_self _ _ _⟩
      · have hd' : d ∈ q ++ s.pending ++ u := by
          simp only [List.mem_append, List.mem_singleton] at hd ⊢
          tauto
        obtain ⟨p', j', k', hf, hdisk⟩ := (h.heads d).mp hd'
        have hpp : p' ≠ p := by
          rintro rfl
          exact hnone _ _ _ hf
        exact ⟨p', j', k', (hother hpp).trans hf, (update_of_ne hpp _ _).trans hdisk⟩
    · rintro ⟨p', j', k', hf, hdisk⟩
      by_cases hp' : p' = p
      · subst hp'
        rw [update_self, Pc.flight.injEq] at hf
        rw [← hf.1]
        simp
      · rw [hother hp'] at hf
        rw [update_of_ne hp'] at hdisk
        have := (h.heads d).mpr ⟨p', j', k', hf, hdisk⟩
        simp only [List.mem_append, List.mem_singleton] at this ⊢
        tauto
  · intro p' i' j' k' hf hdisk
    dsimp only [St.submit, mark] at hf hdisk ⊢
    by_cases hp' : p' = p
    · subst hp'
      rw [update_self, Pc.flight.injEq] at hf
      rw [hf.1, update_self]
    · rw [hother hp'] at hf
      rw [update_of_ne hp'] at hdisk
      have hi' := (hnew p' i' (by rw [hf]; exact List.mem_cons_self)).1
      rw [update_of_ne hi']
      exact h.info p' i' j' k' hf hdisk
  · intro d hd
    have hdi : d ≠ i := fun he => hnot (by rw [← he]; exact List.mem_append_right _ hd)
    dsimp only [St.submit, mark]
    rw [update_of_ne hdi]
    exact h.status d hd
  · intro p' i' j' k' hf hdone
    dsimp only [St.submit, mark] at hf hdone ⊢
    by_cases hp' : p' = p
    · subst hp'
      rw [update_self, Pc.flight.injEq] at hf
      rw [update_self] at hdone
      rcases hdone with hdone | hdone
      · cases hdone
      · exact absurd (List.mem_append_right _ hdone) (hf.1 ▸ hnot)
    · rw [hother hp'] at hf
      rw [update_of_ne hp'] at hdone ⊢
      exact h.served p' i' j' k' hf hdone
  · dsimp only [St.submit, mark]
    rw [h.log]
    congr 1
    apply List.map_congr_left
    intro d hd
    have hdi : d ≠ i := fun he => hnot (by rw [← he]; exact List.mem_append_right _ hd)
    rw [update_of_ne hdi]

theorem rw {write : Bool} (h : Inv s q u) (hp : s.pc p = .idle ∨ s.pc p = .waiting) :
    ∃ q', Inv (s.rw p write) (q ++ q') u ∧ (s.rw p write).taken = s.taken := by
  rcases alloc3Desc_cases s with ⟨desc, halloc, hdesc⟩ | ⟨i, j, k, hfree, hne, halloc⟩
  · refine ⟨[], ?_⟩
    rw [St.rw, halloc, List.append_nil]
    exact ⟨h.wait hp hdesc, rfl⟩
  · refine ⟨[i], ?_⟩
    rw [St.rw, halloc]
    exact ⟨h.submit hp hfree hne, rfl⟩

/-! ### The device -/

theorem ne_nil (h : Inv s q u) (hne : s.taken ≠ s.availIdx) : q ≠ [] := by
  intro hq
  exact hne ((h.avail.eq_iff h.length_lt.1).mpr hq)

theorem take {h₀ : Fin num} (h : Inv s (h₀ :: q) u) : Inv s.take q u := by
  obtain ⟨hhead, havail⟩ := h.avail.pop num_dvd
  have hperm : (q ++ (h₀ :: s.pending) ++ u).Perm (h₀ :: q ++ s.pending ++ u) := by
    simp only [List.append_assoc, List.cons_append]
    exact List.perm_middle
  have hpending : s.take.pending = h₀ :: s.pending := by rw [St.take, hhead]
  refine ⟨h.ok, havail, h.used, h.chain, h.busy, h.apart, ?_, ?_, h.info, h.status, h.served, h.log⟩
  · rw [hpending]
    exact hperm.nodup_iff.mpr h.nodup
  · intro d
    rw [hpending, hperm.mem_iff]
    exact h.heads d

theorem owner {d : Fin num} (h : Inv s q u) (hd : d ∈ q ++ s.pending ++ u) :
    ∃ p j k, s.pc p = .flight d j k ∧ s.disk p = true ∧ s.info d = some p ∧ (s.second d).addr = .data p ∧
      (s.third d).addr = .status d := by
  obtain ⟨p, j, k, hf, hdisk⟩ := (h.heads d).mp hd
  obtain ⟨h₁, h₂, h₃, -⟩ := h.chain p d j k hf
  have hslot : ∀ i : Fin num, slot num i = i := fun i => Fin.ext (Nat.mod_eq_of_lt i.isLt)
  have hsecond : s.second d = s.desc j := by rw [St.second, h₁.2, hslot]
  have hthird : s.third d = s.desc k := by rw [St.third, hsecond, h₂.2.2, hslot]
  refine ⟨p, j, k, hf, hdisk, h.info p d j k hf hdisk, ?_, ?_⟩
  · rw [hsecond]
    exact h₂.1
  · rw [hthird]
    exact h₃.1

theorem complete_eq {d : Fin num} (hsecond : (s.second d).addr = .data p) (hthird : (s.third d).addr = .status d) :
    s.complete d = { s with
      served := update s.served p true
      completions := s.completions ++ [p]
      pending := s.pending.erase d
      status := update s.status d 0
      usedRing := update s.usedRing (slot num s.usedIdx) d
      usedIdx := (s.usedIdx + 1) % idxMod } := by
  have hthird' : (St.third { s with served := update s.served p true, completions := s.completions ++ [p] } d).addr =
      .status d := hthird
  unfold St.complete
  rw [hsecond]
  dsimp only
  rw [hthird']

theorem complete {d : Fin num} (h : Inv s q u) (hd : d ∈ s.pending) : Inv (s.complete d) q (u ++ [d]) := by
  have hmem : d ∈ q ++ s.pending ++ u := List.mem_append_left _ (List.mem_append_right _ hd)
  obtain ⟨p, j, k, hf, hdisk, hinfo, hsecond, hthird⟩ := h.owner hmem
  have hperm : (q ++ s.pending.erase d ++ (u ++ [d])).Perm (q ++ s.pending ++ u) := by
    have herase : (d :: s.pending.erase d).Perm s.pending := (List.perm_cons_erase hd).symm
    calc (q ++ s.pending.erase d ++ (u ++ [d])).Perm (q ++ s.pending.erase d ++ (d :: u)) :=
          List.Perm.append_left _ (List.perm_append_singleton d u)
      _ = q ++ (s.pending.erase d ++ d :: u) := List.append_assoc _ _ _
      List.Perm _ (q ++ (d :: s.pending.erase d ++ u)) := List.Perm.append_left _ List.perm_middle
      List.Perm _ (q ++ (s.pending ++ u)) := List.Perm.append_left _ (List.Perm.append_right _ herase)
      _ = q ++ s.pending ++ u := (List.append_assoc _ _ _).symm
  have hnotused : d ∉ u := by
    intro hu
    have := h.nodup
    rw [List.nodup_append] at this
    exact this.2.2 d (List.mem_append_right _ hd) d hu rfl
  have hlen : u.length < num := by
    have hle := h.length_le
    have hpos := List.length_pos_of_mem hd
    omega
  rw [complete_eq hsecond hthird]
  refine ⟨h.ok, h.avail, h.used.push num_dvd hlen, h.chain, h.busy, h.apart, ?_, ?_, h.info, ?_, ?_, ?_⟩
  · exact hperm.nodup_iff.mpr h.nodup
  · intro e
    rw [hperm.mem_iff]
    exact h.heads e
  · intro e he
    dsimp only
    by_cases hed : e = d
    · rw [hed, update_self]
    · rw [update_of_ne hed]
      apply h.status
      simpa [hed] using he
  · intro p' i' j' k' hf' hdone
    dsimp only
    by_cases hp' : p' = p
    · rw [hp', update_self]
    · rw [update_of_ne hp']
      apply h.served p' i' j' k' hf'
      rcases hdone with hdone | hdone
      · exact .inl hdone
      · have hne : i' ≠ d := by
          rintro rfl
          exact hp' (h.head_unique hf' hf)
        refine .inr ?_
        simpa [hne] using hdone
  · dsimp only
    rw [List.map_append, List.map_append, h.log, List.append_assoc]
    simp only [List.map_cons, List.map_nil, hinfo]

/-! ### The interrupt -/

theorem used_ne_nil (h : Inv s q u) (hne : s.seenIdx ≠ s.usedIdx) : u ≠ [] := by
  intro hu
  have hlen := h.length_le
  exact hne ((h.used.eq_iff (Nat.lt_of_le_of_lt (by omega) (show num < idxMod by decide))).mpr hu)

theorem intr {d : Fin num} (h : Inv s q (d :: u)) : Inv s.intr q u := by
  obtain ⟨hhead, hused⟩ := h.used.pop num_dvd
  have hmem : d ∈ q ++ s.pending ++ (d :: u) := List.mem_append_right _ List.mem_cons_self
  obtain ⟨p, j, k, hf, hdisk, hinfo, -, -⟩ := h.owner hmem
  have hstatus := h.status d List.mem_cons_self
  have hperm : (q ++ s.pending ++ (d :: u)).Perm (d :: (q ++ s.pending ++ u)) := List.perm_middle
  obtain ⟨hnot, hnodup⟩ := List.nodup_cons.mp (hperm.nodup_iff.mp h.nodup)
  have hintr : s.intr = { s with
      disk := update s.disk p false
      seenIdx := (s.seenIdx + 1) % idxMod
      processed := s.processed ++ [p] } := by
    unfold St.intr
    dsimp only
    rw [hhead, if_neg (not_not_intro hstatus), hinfo]
  have hother : ∀ {p' e j' k'}, s.pc p' = .flight e j' k' → e ≠ d → p' ≠ p := by
    rintro p' e j' k' hf' hed rfl
    rw [hf, Pc.flight.injEq] at hf'
    exact hed hf'.1.symm
  rw [hintr]
  refine ⟨h.ok, h.avail, hused, h.chain, h.busy, h.apart, hnodup, ?_, ?_, ?_, ?_, ?_⟩
  · intro e
    dsimp only
    constructor
    · intro he
      have hed : e ≠ d := by
        rintro rfl
        exact hnot he
      obtain ⟨p', j', k', hf', hdisk'⟩ := (h.heads e).mp (hperm.mem_iff.mpr (List.mem_cons_of_mem _ he))
      exact ⟨p', j', k', hf', (update_of_ne (hother hf' hed) _ _).trans hdisk'⟩
    · rintro ⟨p', j', k', hf', hdisk'⟩
      have hp' : p' ≠ p := by
        rintro rfl
        rw [update_self] at hdisk'
        cases hdisk'
      rw [update_of_ne hp'] at hdisk'
      have he := hperm.mem_iff.mp ((h.heads e).mpr ⟨p', j', k', hf', hdisk'⟩)
      rcases List.mem_cons.mp he with rfl | he
      · exact absurd (h.head_unique hf' hf) hp'
      · exact he
  · intro p' i' j' k' hf' hdisk'
    dsimp only at hdisk'
    have hp' : p' ≠ p := by
      rintro rfl
      rw [update_self] at hdisk'
      cases hdisk'
    rw [update_of_ne hp'] at hdisk'
    exact h.info p' i' j' k' hf' hdisk'
  · exact fun e he => h.status e (List.mem_cons_of_mem _ he)
  · intro p' i' j' k' hf' hdone
    dsimp only at hdone
    by_cases hp' : p' = p
    · subst hp'
      have hi' : i' = d := by
        have hboth := hf'.symm.trans hf
        rw [Pc.flight.injEq] at hboth
        exact hboth.1
      exact h.served p' i' j' k' hf' (.inr (hi' ▸ List.mem_cons_self))
    · rw [update_of_ne hp'] at hdone
      exact h.served p' i' j' k' hf' (hdone.imp id (List.mem_cons_of_mem _))
  · dsimp only
    rw [h.log, List.map_cons, hinfo, List.map_append, List.append_assoc]
    rfl

/-! ### The end of a request -/

theorem freeChain_eq (h : Inv s q u) (hf : s.pc p = .flight i j k) : St.freeChain num s i = .ok { s with
    desc := update (update (update s.desc i .zero) j .zero) k .zero
    free := update (update (update s.free i true) j true) k true } := by
  have hbusy : s.free i = false ∧ s.free j = false ∧ s.free k = false := by
    refine ⟨?_, ?_, ?_⟩ <;> rw [h.busy] <;> refine ⟨p, ?_⟩ <;> rw [hf] <;> simp [Pc.triple]
  obtain ⟨h₁, h₂, h₃, hij, hik, hjk⟩ := h.chain p i j k hf
  have hfree (t : St P) (d : Fin num) (hd : t.free d = false) : t.freeDesc d = .ok { t with
      desc := update t.desc d .zero, free := update t.free d true } := by
    rw [St.freeDesc, dif_pos d.isLt]
    exact if_neg (by rw [hd]; exact Bool.false_ne_true)
  have hnext (n : ℕ) (t : St P) (d e : Fin num) (hd : t.free d = false) (hn : (t.desc d).hasNext = true ∧ (t.desc d).next = e) :
      St.freeChain (n + 1) t d = St.freeChain n { t with
        desc := update t.desc d .zero, free := update t.free d true } e := by
    rw [St.freeChain, dif_pos d.isLt, hfree t d hd]
    change (if (t.desc d).hasNext = true then St.freeChain n _ (t.desc d).next else _) = _
    rw [if_pos hn.1, hn.2]
  have hlast (n : ℕ) (t : St P) (d : Fin num) (hd : t.free d = false) (hn : (t.desc d).hasNext = false) :
      St.freeChain (n + 1) t d = .ok { t with
        desc := update t.desc d .zero, free := update t.free d true } := by
    rw [St.freeChain, dif_pos d.isLt, hfree t d hd]
    change (if (t.desc d).hasNext = true then _ else _) = _
    rw [if_neg (by rw [hn]; exact Bool.false_ne_true)]
    rfl
  change St.freeChain (5 + 1 + 1 + 1) s i = _
  rw [hnext _ s i j hbusy.1 h₁, hnext _ _ j k, hlast]
  · dsimp only
    rw [update_of_ne hjk.symm, update_of_ne hik.symm]
    exact hbusy.2.2
  · dsimp only
    rw [update_of_ne hjk.symm, update_of_ne hik.symm]
    exact h₃.2
  · dsimp only
    rw [update_of_ne hij.symm]
    exact hbusy.2.1
  · dsimp only
    rw [update_of_ne hij.symm]
    exact h₂.2

theorem finish (h : Inv s q u) (hf : s.pc p = .flight i j k) (hdisk : s.disk p = false) : Inv (s.finish p i) q u := by
  have hinfo : Inv { s with info := update s.info i none } q u := by
    have hne : ∀ {p' i' j' k'}, s.pc p' = .flight i' j' k' → s.disk p' = true → i' ≠ i := by
      rintro p' i' j' k' hf' hdisk' rfl
      obtain rfl := h.head_unique hf' hf
      rw [hdisk] at hdisk'
      cases hdisk'
    refine ⟨h.ok, h.avail, h.used, h.chain, h.busy, h.apart, h.nodup, h.heads, ?_, h.status, h.served, ?_⟩
    · intro p' i' j' k' hf' hdisk'
      exact (update_of_ne (hne hf' hdisk') _ _).trans (h.info p' i' j' k' hf' hdisk')
    · dsimp only
      rw [h.log]
      congr 1
      apply List.map_congr_left
      intro d hd
      obtain ⟨p', j', k', hf', hdisk'⟩ := (h.heads d).mp (List.mem_append_right _ hd)
      rw [update_of_ne (hne hf' hdisk')]
  have hfin : s.finish p i = { s with
      info := update s.info i none
      desc := update (update (update s.desc i .zero) j .zero) k .zero
      free := update (update (update s.free i true) j true) k true
      pc := update s.pc p .idle } := by
    rw [St.finish, hinfo.freeChain_eq hf]
  -- the other requests have other descriptors
  have hnew : ∀ {p' d}, p' ≠ p → d ∈ (s.pc p').triple → d ≠ i ∧ d ≠ j ∧ d ≠ k := by
    intro p' d hp' hd
    have hmine : ∀ e ∈ [i, j, k], e ∈ (s.pc p).triple := by
      intro e he
      rw [hf]
      exact he
    refine ⟨?_, ?_, ?_⟩ <;> rintro rfl <;> exact hp' (h.apart _ _ _ hd (hmine _ (by simp)))
  have hflight : ∀ {p' i' j' k'}, update s.pc p .idle p' = .flight i' j' k' → p' ≠ p ∧ s.pc p' = .flight i' j' k' := by
    intro p' i' j' k' hf'
    have hp' : p' ≠ p := by
      rintro rfl
      rw [update_self] at hf'
      cases hf'
    rw [update_of_ne hp'] at hf'
    exact ⟨hp', hf'⟩
  rw [hfin]
  refine ⟨h.ok, h.avail, h.used, ?_, ?_, ?_, h.nodup, ?_, ?_, h.status, ?_, hinfo.log⟩
  · intro p' i' j' k' hf'
    obtain ⟨hp', hf'⟩ := hflight hf'
    have hdesc : ∀ d ∈ [i', j', k'], update (update (update s.desc i .zero) j .zero) k .zero d =
        s.desc d := by
      intro d hd
      obtain ⟨h₁, h₂, h₃⟩ := hnew hp' (d := d) (by rw [hf']; exact hd)
      rw [update_of_ne h₃, update_of_ne h₂, update_of_ne h₁]
    obtain ⟨h₁, h₂, h₃, h₄⟩ := h.chain p' i' j' k' hf'
    refine ⟨?_, ?_, ?_, h₄⟩ <;> dsimp only
    · rw [hdesc i' (by simp)]
      exact h₁
    · rw [hdesc j' (by simp)]
      exact h₂
    · rw [hdesc k' (by simp)]
      exact h₃
  · intro d
    dsimp only
    constructor
    · intro hd
      have hin : d ≠ i ∧ d ≠ j ∧ d ≠ k := by
        simp only [update_apply] at hd
        split_ifs at hd with hk hj hi
        exact ⟨hi, hj, hk⟩
      rw [update_of_ne hin.2.2, update_of_ne hin.2.1, update_of_ne hin.1] at hd
      obtain ⟨p', hp'⟩ := (h.busy d).mp hd
      have hpp : p' ≠ p := by
        rintro rfl
        rw [hf] at hp'
        simp only [Pc.triple, List.mem_cons, List.not_mem_nil, or_false] at hp'
        tauto
      exact ⟨p', by rw [update_of_ne hpp]; exact hp'⟩
    · rintro ⟨p', hd⟩
      have hpp : p' ≠ p := by
        rintro rfl
        rw [update_self] at hd
        cases hd
      rw [update_of_ne hpp] at hd
      obtain ⟨h₁, h₂, h₃⟩ := hnew hpp hd
      rw [update_of_ne h₃, update_of_ne h₂, update_of_ne h₁, h.busy]
      exact ⟨p', hd⟩
  · intro p' p'' d hd hd'
    dsimp only at hd hd'
    have hpp : ∀ {p'}, d ∈ (update s.pc p .idle p').triple → d ∈ (s.pc p').triple := by
      intro p' hd
      by_cases hp' : p' = p
      · subst hp'
        rw [update_self] at hd
        cases hd
      · rwa [update_of_ne hp'] at hd
    exact h.apart p' p'' d (hpp hd) (hpp hd')
  · intro d
    rw [h.heads]
    constructor
    · rintro ⟨p', j', k', hf', hdisk'⟩
      have hp' : p' ≠ p := by
        rintro rfl
        rw [hdisk] at hdisk'
        cases hdisk'
      exact ⟨p', j', k', (update_of_ne hp' _ _).trans hf', hdisk'⟩
    · rintro ⟨p', j', k', hf', hdisk'⟩
      exact ⟨p', j', k', (hflight hf').2, hdisk'⟩
  · intro p' i' j' k' hf'
    exact hinfo.info p' i' j' k' (hflight hf').2
  · intro p' i' j' k' hf'
    exact h.served p' i' j' k' (hflight hf').2

theorem step_rw {write : Bool} {t : St P} (h : Inv s q u) (ht : step s (.rw p write) = some t) :
    (s.pc p = .idle ∨ s.pc p = .waiting) ∧ t = s.rw p write := by
  unfold step at ht
  rw [h.ok] at ht
  simp only [Option.isSome_none, Bool.false_eq_true, if_false] at ht
  split_ifs at ht with hp
  exact ⟨hp, (Option.some.inj ht).symm⟩

theorem step_finish {t : St P} (h : Inv s q u) (ht : step s (.finish p) = some t) :
    ∃ i j k, s.pc p = .flight i j k ∧ s.disk p = false ∧ t = s.finish p i := by
  unfold step at ht
  rw [h.ok] at ht
  simp only [Option.isSome_none, Bool.false_eq_true, if_false] at ht
  split at ht
  · next i j k hf =>
    split_ifs at ht with hdisk
    exact ⟨i, j, k, hf, hdisk, (Option.some.inj ht).symm⟩
  · cases ht

theorem of_step {a : Act P} {t : St P} (h : Inv s q u) (ht : step s a = some t) : ∃ q' u', Inv t q' u' := by
  cases a with
  | rw p write =>
    obtain ⟨hp, rfl⟩ := h.step_rw ht
    obtain ⟨q', hq', -⟩ := h.rw hp
    exact ⟨q ++ q', u, hq'⟩
  | take =>
    simp only [step, h.ok, Option.isSome_none, Bool.false_eq_true, if_false] at ht
    split_ifs at ht with hne
    cases ht
    obtain ⟨d, q', rfl⟩ := List.exists_cons_of_ne_nil (h.ne_nil hne)
    exact ⟨q', u, h.take⟩
  | complete d =>
    simp only [step, h.ok, Option.isSome_none, Bool.false_eq_true, if_false] at ht
    split_ifs at ht with hd
    cases ht
    exact ⟨q, u ++ [d], h.complete hd⟩
  | intr =>
    simp only [step, h.ok, Option.isSome_none, Bool.false_eq_true, if_false] at ht
    split_ifs at ht with hne
    cases ht
    obtain ⟨d, u', rfl⟩ := List.exists_cons_of_ne_nil (h.used_ne_nil hne)
    exact ⟨q, u', h.intr⟩
  | finish p =>
    obtain ⟨i, j, k, hf, hdisk, rfl⟩ := h.step_finish ht
    exact ⟨q, u, h.finish hf hdisk⟩

theorem of_run {C : St P → Act P → Prop} (hrun : Run step C (St.init P) s) : ∃ q u, Inv s q u :=
  hrun.invariant (I := fun s => ∃ q u, Inv s q u) ⟨[], [], inv_init⟩ (fun _ _ _ ⟨_, _, hi⟩ _ ht => hi.of_step ht)

/-! ### Counting the descriptors -/

theorem flights_finite (h : Inv s q u) : Set.Finite {p | (s.pc p).triple ≠ []} := by
  have hsub : {p | (s.pc p).triple ≠ []} ⊆ ⋃ d : Fin num, {p | d ∈ (s.pc p).triple} := by
    intro p hp
    obtain ⟨d, hd⟩ := List.exists_mem_of_ne_nil _ hp
    exact Set.mem_iUnion.mpr ⟨d, hd⟩
  apply Set.Finite.subset _ hsub
  apply Set.finite_iUnion
  intro d
  apply Set.Subsingleton.finite
  intro p hp p' hp'
  exact h.apart p p' d hp hp'

theorem triple_nodup (h : Inv s q u) (p : P) : (s.pc p).triple.Nodup := by
  cases hf : s.pc p with
  | flight i j k =>
    obtain ⟨h₁, h₂, h₃⟩ := (h.chain p i j k hf).ne
    simp [Pc.triple, h₁, h₂, h₃]
  | _ => exact List.nodup_nil

theorem card_free (h : Inv s q u) :
    (Finset.univ.filter (fun d => s.free d = true)).card + 3 * Set.ncard {p | (s.pc p).triple ≠ []} = num := by
  have hbusy : Finset.univ.filter (fun d => ¬s.free d = true) =
      h.flights_finite.toFinset.biUnion (fun p => (s.pc p).triple.toFinset) := by
    ext d
    simp only [Finset.mem_filter, Finset.mem_univ, true_and, Bool.not_eq_true, h.busy, Finset.mem_biUnion,
      Set.Finite.mem_toFinset, Set.mem_ofPred_eq, List.mem_toFinset]
    constructor
    · rintro ⟨p, hp⟩
      exact ⟨p, List.ne_nil_of_mem hp, hp⟩
    · rintro ⟨p, -, hp⟩
      exact ⟨p, hp⟩
  have hcard : (Finset.univ.filter (fun d => ¬s.free d = true)).card = 3 * Set.ncard {p | (s.pc p).triple ≠ []} := by
    rw [hbusy, Finset.card_biUnion]
    · rw [Finset.sum_const_nat (m := 3), Set.ncard_eq_toFinset_card _ h.flights_finite, Nat.mul_comm]
      intro p hp
      rw [List.toFinset_card_of_nodup (h.triple_nodup p)]
      rw [Set.Finite.mem_toFinset] at hp
      cases hf : s.pc p with
      | flight i j k => rfl
      | _ => exact absurd (by rw [hf]; rfl) hp
    · intro p _ p' _ hne
      rw [Function.onFun, Finset.disjoint_left]
      intro d hd hd'
      rw [List.mem_toFinset] at hd hd'
      exact hne (h.apart p p' d hd hd')
  rw [← hcard, Finset.card_filter_add_card_filter_not, Finset.card_univ, Fintype.card_fin]

end Inv

/-- In every run the requests in flight have descriptors of their own, and the completions are processed in order, each one once. -/
theorem virtio_disk_protocol (hrun : Run step (fun _ _ => True) (St.init P) s) :
    s.panicked = none ∧
    (∀ p, (s.pc p).triple.Nodup ∧ ∀ d ∈ (s.pc p).triple, s.free d = false ∧ ∀ p', p' ≠ p → d ∉ (s.pc p').triple) ∧
    (Finset.univ.filter (fun d => s.free d = true)).card + 3 * Set.ncard {p | (s.pc p).triple ≠ []} = num ∧
    (∀ p t, step s (.finish p) = some t → s.served p = true ∧ t.panicked = none) ∧
    (∀ p write t, step s (.rw p write) = some t → ∀ n < ahead idxMod s.taken s.availIdx,
      t.availRing (slot num (s.taken + n)) = s.availRing (slot num (s.taken + n))) ∧
    s.completions.map some = s.processed.map some ++ (List.range (ahead idxMod s.seenIdx s.usedIdx)).map
      (fun n => s.info (s.usedRing (slot num (s.seenIdx + n)))) := by
  obtain ⟨q, u, h⟩ := Inv.of_run hrun
  refine ⟨h.ok, ?_, h.card_free, ?_, ?_, ?_⟩
  · intro p
    refine ⟨h.triple_nodup p, fun d hd => ⟨(h.busy d).mpr ⟨p, hd⟩, fun p' hne hd' => hne (h.apart p' p d hd' hd)⟩⟩
  · intro p t ht
    obtain ⟨q', u', h'⟩ := h.of_step ht
    obtain ⟨i, j, k, hf, hdisk, -⟩ := h.step_finish ht
    exact ⟨h.served p i j k hf (.inl hdisk), h'.ok⟩
  · intro p write t ht n hn
    obtain ⟨hp, rfl⟩ := h.step_rw ht
    obtain ⟨q', h', htaken⟩ := h.rw hp
    rw [h.avail.ahead_eq h.length_lt.1] at hn
    have hget := h'.avail.get n (by rw [List.length_append]; omega)
    rw [htaken] at hget
    rw [hget, h.avail.get n hn]
    simp [List.getElem_append_left hn]
  · rw [h.log]
    congr 1
    conv_lhs => rw [← h.used.entries_eq h.length_lt.2]
    rw [List.map_map]
    rfl

theorem virtio_disk_protocol_out_of_order : ∃ s : St (Fin 3), Run step (fun _ _ => True) (St.init (Fin 3)) s ∧
    s.pc 2 = .waiting ∧ s.processed = [1] ∧ (step s (.finish 1)).isSome = true ∧
    ∀ p t, step s (.finish p) = some t → s.served p = true ∧ t.panicked = none := by
  have hex : ∃ s, execute step (fun _ _ => True) (St.init (Fin 3))
      [.rw 0 false, .rw 1 true, .rw 2 false, .take, .take, .complete 3, .complete 0, .intr] = some s ∧
      s.pc 2 = .waiting ∧ s.processed = [1] ∧ (step s (.finish 1)).isSome = true := ⟨_, rfl, rfl, rfl, rfl⟩
  obtain ⟨s, hs, hwait, hone, hstep⟩ := hex
  exact ⟨s, run_of_execute hs, hwait, hone, hstep, (virtio_disk_protocol (run_of_execute hs)).2.2.2.1⟩

end Steps

end Xv6.Disk
