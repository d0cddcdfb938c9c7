import Xv6.Links.Runs

namespace Xv6.Links

open Lib Lib.Transition Fs

variable {I : Type} [DecidableEq I] [Fintype I] {root dp ip inum : I} {s t : St I} {name : Name} {type : ℕ}

section Clean

omit [Fintype I]

def Room (s : St I) (dp : Option I) (name : Name) : Prop :=
  ∀ d ∈ dp, dirlookup (s d).dir name = none → (s d).dir.length < maxEntries

def Clean (s : St I) (dp : Option I) (name : Name) (r : ℤ) (t : St I) : Prop :=
  (0 ≤ r ∧ ∃ d ∈ dp, dirlookup (t d).dir name ≠ none) ∨ r = -1 ∧ t = s

omit [DecidableEq I] in
theorem dirlookup_append {d : List (Name × I)} {i : I} (h : dirlookup d name = none) : dirlookup (d ++ [(name, i)]) name = some i := by
  rw [dirlookup_dirlink h, Function.update_self]

theorem sysLink_clean {ip dp : Option I} (hdp : ∀ d ∈ dp, (s d).type = dirType) (hroom : Room s dp name) :
    ∃ r t, sysLink s ip dp name = .ok (r, t) ∧ Clean s dp name r t := by
  cases ip with
  | none => exact ⟨-1, s, rfl, Or.inr ⟨rfl, rfl⟩⟩
  | some ip =>
    by_cases hdir : (s ip).type = dirType
    · refine ⟨-1, s, ?_, Or.inr ⟨rfl, rfl⟩⟩
      simp only [sysLink, if_pos hdir]
    · cases dp with
      | none =>
        refine ⟨-1, s, ?_, Or.inr ⟨rfl, rfl⟩⟩
        simp only [sysLink, if_neg hdir, addLinks_undo]
      | some dp =>
        have hne : dp ≠ ip := by
          rintro rfl
          exact hdir (hdp dp rfl)
        rw [sysLink_eq hdir hne]
        by_cases hlook : dirlookup (s dp).dir name = none
        · rw [if_neg (not_not.mpr hlook), if_pos (hroom dp rfl hlook)]
          refine ⟨0, _, rfl, Or.inl ⟨Int.le_refl _, dp, rfl, ?_⟩⟩
          rw [St.putDir, Function.update_self]
          dsimp only
          rw [dirlookup_append hlook]
          exact Option.some_ne_none _
        · rw [if_pos hlook]
          exact ⟨-1, s, rfl, Or.inr ⟨rfl, rfl⟩⟩

theorem create_clean {dp : Option I} (hdp : ∀ d ∈ dp, (s d).type = dirType) (hinum : (s inum).type = 0) (hroom : Room s dp name)
    (type : ℕ) :
    ∃ r t, create s dp name type inum = .ok (r, t) ∧
      ((r ≠ none ∧ ∃ d ∈ dp, dirlookup (t d).dir name ≠ none) ∨ r = none ∧ t = s) := by
  cases dp with
  | none => exact ⟨none, s, rfl, Or.inr ⟨rfl, rfl⟩⟩
  | some dp =>
    cases hlook : dirlookup (s dp).dir name with
    | some i =>
      simp only [create, hlook]
      refine ⟨_, _, rfl, ?_⟩
      split_ifs
      · exact Or.inl ⟨Option.some_ne_none _, dp, rfl, by rw [hlook]; exact Option.some_ne_none _⟩
      · exact Or.inr ⟨rfl, rfl⟩
    | none =>
      have hne : dp ≠ inum := by
        rintro rfl
        rw [hdp dp rfl] at hinum
        exact absurd hinum (by decide)
      obtain ⟨t, ht, htdp, -, -⟩ := create_eq hne hlook type
      rw [if_pos (hroom dp rfl hlook)] at ht
      refine ⟨some inum, t, ht, Or.inl ⟨Option.some_ne_none _, dp, rfl, ?_⟩⟩
      rw [htdp]
      dsimp only
      rw [dirlookup_append hlook]
      exact Option.some_ne_none _

theorem sysMake_clean {dp : Option I} (hdp : ∀ d ∈ dp, (s d).type = dirType) (hinum : (s inum).type = 0) (hroom : Room s dp name)
    (type : ℕ) : ∃ r t, sysMake s dp name type inum = .ok (r, t) ∧ Clean s dp name r t := by
  obtain ⟨r, t, hok, hr⟩ := create_clean hdp hinum hroom type
  unfold sysMake
  rw [hok]
  cases r with
  | none => exact ⟨-1, t, rfl, Or.inr ⟨rfl, hr.elim (fun hx => absurd rfl hx.1) And.right⟩⟩
  | some i => exact ⟨0, t, rfl, Or.inl ⟨Int.le_refl _, hr.elim And.right (fun hx => absurd hx.1 (Option.some_ne_none _))⟩⟩

theorem sysOpen_clean {dp : Option I} (hdp : ∀ d ∈ dp, (s d).type = dirType) (hinum : (s inum).type = 0) (hroom : Room s dp name)
    (fd : ℕ) : ∃ r t, sysOpen s dp name inum (some fd) = .ok (r, t) ∧ Clean s dp name r t := by
  obtain ⟨r, t, hok, hr⟩ := create_clean hdp hinum hroom fileType
  unfold sysOpen
  rw [hok]
  cases r with
  | none => exact ⟨-1, t, rfl, Or.inr ⟨rfl, hr.elim (fun hx => absurd rfl hx.1) And.right⟩⟩
  | some i =>
    exact ⟨fd, t, rfl, Or.inl ⟨Int.natCast_nonneg _, hr.elim And.right (fun hx => absurd hx.1 (Option.some_ne_none _))⟩⟩

end Clean

def linkName (k : ℕ) : Name := [1, UInt8.ofNat (k / 256), UInt8.ofNat k]

theorem linkName_inj {j k : ℕ} (hj : j < 65536) (hk : k < 65536) (h : linkName j = linkName k) : j = k := by
  simp only [linkName, List.cons.injEq, and_true, true_and] at h
  have h1 := congrArg UInt8.toNat h.1
  have h2 := congrArg UInt8.toNat h.2
  simp only [UInt8.toNat_ofNat'] at h1 h2
  omega

def crowded (r f : Small) (k : ℕ) : St Small := fun i =>
  if i = r then ⟨dirType, 1, (dot, r) :: (dotdot, r) :: ([102], f) :: (List.range k).map (fun j => (linkName j, f)), []⟩
  else if i = f then ⟨fileType, BitVec.ofNat 16 (k + 1), [], []⟩ else ⟨0, 0, [], []⟩

theorem crowded_length (k : ℕ) : (crowded 1 2 k 1).dir.length = k + 3 := by
  simp [crowded]

theorem crowded_lookup {k : ℕ} (hk : k < 65536) : dirlookup (crowded 1 2 k 1).dir (linkName k) = none := by
  unfold dirlookup
  rw [Option.map_eq_none_iff, List.find?_eq_none]
  intro e he
  rw [decide_eq_true_eq]
  have hmem : e = (dot, 1) ∨ e = (dotdot, 1) ∨ e = ([102], 2) ∨ ∃ j < k, (linkName j, 2) = e := by
    simpa [crowded] using he
  rintro hname
  rcases hmem with rfl | rfl | rfl | ⟨j, hj, rfl⟩
  · simp [linkName, dot] at hname
  · simp [linkName, dotdot] at hname
  · simp [linkName] at hname
  · have := linkName_inj (by omega) hk hname
    omega

theorem step_crowded {k : ℕ} (hk : k + 3 < maxEntries) : step (crowded 1 2 k) (.link 2 (some 1) (linkName k)) = some (crowded 1 2 (k + 1)) := by
  have hmax : maxEntries = 17152 := by decide
  have hne : (1 : Small) ≠ 2 := by decide
  have hdir : (crowded 1 2 k 2).type ≠ dirType := by
    simp [crowded, fileType, dirType]
  rw [step, sysLink_eq hdir hne, if_neg (not_not.mpr (crowded_lookup (by omega))), if_pos (by rw [crowded_length]; exact hk)]
  apply congrArg some
  funext i
  by_cases h1 : i = 1
  · rw [h1]
    simp [St.putDir, St.addLinks, crowded, List.range_succ]
  · by_cases h2 : i = 2
    · rw [h2]
      simp [St.putDir, St.addLinks, crowded, BitVec.ofNat_add]
    · simp [St.putDir, St.addLinks, crowded, h1, h2]

theorem create_crowded : step (fresh (1 : Small)) (.create 1 [102] fileType 2) = some (crowded 1 2 0) := by
  have hne : (1 : Small) ≠ 2 := by decide
  have hlook : dirlookup (fresh (1 : Small) 1).dir [102] = none := rfl
  obtain ⟨t, ht, ht1, ht2, hother⟩ := create_eq hne hlook fileType
  rw [step, ht, if_pos (by decide)]
  apply congrArg some
  funext i
  change t i = crowded 1 2 0 i
  by_cases h1 : i = 1
  · rw [h1, ht1]
    rfl
  · by_cases h2 : i = 2
    · rw [h2, ht2]
      rfl
    · rw [hother i h1 h2, fresh_of_ne h1]
      simp [crowded, h1, h2]

theorem crowded_run {k : ℕ} (hk : k + 3 ≤ maxEntries) :
    Run step (fun s c => Ready s c ∧ Within 1 s c) (fresh (1 : Small)) (crowded 1 2 k) ∧ Consistent 1 (crowded 1 2 k) := by
  have hmax : maxEntries = 17152 := by decide
  induction k with
  | zero =>
    have hready : Ready (fresh (1 : Small)) (.create 1 [102] fileType 2) := by decide
    have hwithin : Within 1 (fresh (1 : Small)) (.create 1 [102] fileType 2) := by decide
    exact ⟨Run.refl.tail ⟨hready, hwithin⟩ create_crowded, fresh_consistent.step hready hwithin create_crowded⟩
  | succ k ih =>
    obtain ⟨hrun, hcons⟩ := ih (by omega)
    have hfile : (crowded 1 2 k 2).type ≠ 0 := by
      simp [crowded, fileType]
    have hlinks : (links 1 (crowded 1 2 k) 2 : ℤ) = k + 1 := by
      have hint := hcons.toInt_nlink hfile
      have hval : (crowded 1 2 k 2).nlink.toInt = ((k + 1 : ℕ) : ℤ) := by
        have hnat : (BitVec.ofNat 16 (k + 1)).toNat = k + 1 := by
          rw [BitVec.toNat_ofNat]
          exact Nat.mod_eq_of_lt (by omega)
        change (BitVec.ofNat 16 (k + 1)).toInt = _
        rw [BitVec.toInt_eq_toNat_of_lt (by omega), hnat]
      rw [← hint, hval]
      rfl
    have hready : Ready (crowded 1 2 k) (.link 2 (some 1) (linkName k)) := by
      refine ⟨hfile, ?_⟩
      rintro d hd
      cases hd
      simp [crowded]
    have hwithin : Within 1 (crowded 1 2 k) (.link 2 (some 1) (linkName k)) := by
      rintro d hd
      cases hd
      exact ⟨Or.inl rfl, by omega⟩
    have hstep := step_crowded (k := k) (by omega)
    exact ⟨hrun.tail ⟨hready, hwithin⟩ hstep, hcons.step hready hwithin hstep⟩

end Xv6.Links
