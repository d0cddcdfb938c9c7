import Xv6.Links.Counts

namespace Xv6.Links

open Lib Lib.Transition Fs

variable {I : Type} [DecidableEq I] [Fintype I] {root dp ip inum : I} {s t : St I} {name : Name} {type : ℕ}

def fresh (root : I) : St I := Function.update (fun _ => ⟨0, 0, [], []⟩) root ⟨dirType, 1, [(dot, root), (dotdot, root)], []⟩

omit [Fintype I] in
theorem fresh_root : fresh root root = ⟨dirType, 1, [(dot, root), (dotdot, root)], []⟩ := Function.update_self _ _ _

omit [Fintype I] in
theorem fresh_of_ne (h : ip ≠ root) : fresh root ip = ⟨0, 0, [], []⟩ := Function.update_of_ne h _ _

theorem fresh_consistent : Consistent root (fresh root) := by
  have hdir0 : (0 : ℕ) ≠ dirType := by decide
  have hrest : ∀ d, rest (fresh root) d = [] := by
    intro d
    by_cases hd : d = root
    · rw [hd, rest, fresh_root]
      rfl
    · rw [rest, fresh_of_ne hd]
      rfl
  have hnamed : ∀ i, named (fresh root) i = 0 := by
    intro i
    apply Finset.sum_eq_zero
    intro d _
    rw [hrest]
    rfl
  have hparent : ∀ d i, parent (fresh root) d = some i → d = root ∧ i = root := by
    intro d i hp
    by_cases hd : d = root
    · rw [hd, parent, fresh_root] at hp
      exact ⟨hd, (Option.some.inj hp).symm⟩
    · rw [parent, fresh_of_ne hd] at hp
      cases hp
  have htop : parent (fresh root) root = some root := by
    rw [parent, fresh_root]
    rfl
  have hlinks : ∀ i, links root (fresh root) i = if i = root then 1 else 0 := by
    intro i
    rw [links, hnamed, Nat.zero_add, dotted]
    have hterm : ∀ d, (if parent (fresh root) d = some i ∧ Linked root (fresh root) d then 1 else 0) =
        if d = root then if i = root then 1 else 0 else 0 := by
      intro d
      split_ifs with h1 h2 h3 h2 h3
      · rfl
      · exact absurd (hparent d i h1.1).2 h3
      · exact absurd (hparent d i h1.1).1 h2
      · exact absurd ⟨by rw [h2, h3]; exact htop, Or.inl h2⟩ h1
      · rfl
      · rfl
    rw [Finset.sum_congr rfl (fun d _ => hterm d), Finset.sum_ite_eq']
    simp
  refine ⟨?_, ?_, ⟨?_, htop, hnamed root⟩, ?_, ?_, ?_, fun d _ => hrest d, ?_, ?_⟩
  · intro d hd
    by_cases hdr : d = root
    · rw [hdr, fresh_root]
      exact ⟨root, [], rfl⟩
    · rw [fresh_of_ne hdr] at hd
      exact absurd hd hdir0
  · intro d hd
    by_cases hdr : d = root
    · rw [hdr, fresh_root] at hd
      exact absurd rfl hd
    · rw [fresh_of_ne hdr]
  · rw [fresh_root]
  · intro d e he
    rw [hrest] at he
    cases he
  · intro i _
    rw [hnamed]
    exact Nat.zero_le _
  · intro d e he
    rw [hrest] at he
    cases he
  · intro i hi
    by_cases hir : i = root
    · rw [hlinks, if_pos hir, hir, fresh_root]
      rfl
    · rw [fresh_of_ne hir] at hi
      exact absurd rfl hi
  · intro i
    rw [hlinks]
    split_ifs <;> omega

instance (s : St I) : ∀ c, Decidable (Ready s c)
  | .link ip none _ => decidable_of_iff ((s ip).type ≠ 0) ⟨fun h => ⟨h, fun _ hd => absurd hd (Option.not_mem_none _)⟩, And.left⟩
  | .link ip (some dp) _ => decidable_of_iff ((s ip).type ≠ 0 ∧ (s dp).type = dirType)
      ⟨fun h => ⟨h.1, fun _ hd => Option.some.inj hd ▸ h.2⟩, fun h => ⟨h.1, h.2 dp rfl⟩⟩
  | .unlink dp _ => inferInstanceAs (Decidable ((s dp).type = dirType))
  | .create _ _ _ _ => inferInstanceAs (Decidable (_ ∧ _ ∧ _))
  | .iput ip => inferInstanceAs (Decidable ((s ip).type ≠ 0))

instance (s : St I) : ∀ c, Decidable (Within root s c)
  | .link _ none _ => .isTrue (fun _ hd => absurd hd (Option.not_mem_none _))
  | .link ip (some dp) _ => decidable_of_iff (Linked root s dp ∧ links root s ip < 32767)
      ⟨fun h _ hd => Option.some.inj hd ▸ h, fun h => h dp rfl⟩
  | .unlink _ _ => .isTrue trivial
  | .create _ _ _ _ => inferInstanceAs (Decidable (_ ∧ _))
  | .iput _ => .isTrue trivial

/-- While entries are added only to directories that have a name and no inode would get more than 32767 links, the link counts
are the true ones. -/
theorem link_counts_are_true {s₀ : St I} (h₀ : Consistent root s₀)
    (hrun : Run step (fun s c => Ready s c ∧ Within root s c) s₀ s) :
    (∀ i, 0 < links root s i → 1 ≤ (s i).nlink.toInt ∧ (s i).nlink.toInt ≤ 32767) ∧
    (∀ i, (s i).type ≠ 0 → (s i).nlink.toInt = links root s i) ∧
    (∀ dp name, (s dp).type = dirType → ∃ r, sysUnlink s dp name = .ok r) ∧
    ∀ ip, (s ip).type ≠ 0 → (iput s ip ip).type = 0 → links root s ip = 0 := by
  have h : Consistent root s := by
    apply hrun.invariant h₀
    intro s c t hs hc hstep
    exact hs.step hc.1 hc.2 hstep
  refine ⟨?_, fun i hi => h.toInt_nlink hi, ?_, ?_⟩
  · intro i hi
    have hty : (s i).type ≠ 0 := fun hx => by
      rw [h.links_free hx] at hi
      omega
    have hb := h.bound i
    rw [h.toInt_nlink hty]
    omega
  · intro dp name hdp
    obtain ⟨r, t, hok, -⟩ := h.sysUnlink hdp name
    exact ⟨(r, t), hok⟩
  · intro ip hip hfreed
    unfold iput at hfreed
    split_ifs at hfreed with hz
    · exact h.links_of_zero hip hz
    · exact absurd hfreed hip

omit [Fintype I] in
theorem sysLink_wraps (hdir : (s ip).type ≠ dirType) (hne : dp ≠ ip) (hn : (s ip).nlink.toInt = 32767)
    (hlook : dirlookup (s dp).dir name = none) (hroom : (s dp).dir.length < maxEntries) :
    ∃ t, sysLink s (some ip) (some dp) name = .ok (0, t) ∧ (t ip).nlink.toInt = -32768 := by
  have hnlink : (s ip).nlink = 32767#16 := BitVec.eq_of_toInt_eq hn
  rw [sysLink_eq hdir hne, if_neg (not_not.mpr hlook), if_pos hroom]
  refine ⟨_, rfl, ?_⟩
  rw [St.putDir, Function.update_of_ne hne.symm, St.addLinks, Function.update_self, hnlink]
  change (32767#16 + 1).toInt = -32768
  decide

abbrev Small := Fin 4

def tidy : List (Call Small) :=
  [.create 1 [100] dirType 2, .create 2 [120] fileType 3, .link 3 (some 1) [121], .unlink 2 [120], .unlink 1 [100], .iput 2]

def tidied : St Small :=
  (execute step (fun s c => Ready s c ∧ Within 1 s c) (fresh 1) tidy).get (by decide +kernel)

theorem tidied_counts : (tidied 3).nlink.toInt = 1 ∧ links 1 tidied 3 = 1 := by
  have hrun : Run step (fun s c => Ready s c ∧ Within 1 s c) (fresh 1) tidied := run_of_execute (Option.some_get _).symm
  have hlinks : links 1 tidied 3 = 1 := by decide +kernel
  have h := link_counts_are_true fresh_consistent hrun
  refine ⟨?_, hlinks⟩
  rw [h.2.1 3 (by decide +kernel), hlinks]
  rfl

def orphan : List (Call Small) :=
  [.create 1 [100] dirType 2, .unlink 1 [100], .create 2 [120] fileType 3, .link 3 (some 1) [121], .iput 2]

def orphaned : St Small := (execute step Ready (fresh 1) orphan).get (by decide +kernel)

theorem link_count_stale : Run step Ready (fresh 1) orphaned ∧ dirlookup (orphaned 1).dir [121] = some 3 ∧
    links 1 orphaned 3 = 1 ∧ (orphaned 3).nlink.toInt = 2 :=
  ⟨run_of_execute (Option.some_get _).symm, by decide +kernel, by decide +kernel, by decide +kernel⟩

end Xv6.Links
