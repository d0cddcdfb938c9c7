import Xv6.Links.Calls

namespace Xv6.Links

open Lib Lib.Transition Fs
open Function (update update_of_ne update_self update_eq_self update_idem)

variable {I : Type} [DecidableEq I] [Fintype I] {root dp ip inum : I} {s t : St I} {name : Name} {type : ℕ}

namespace Consistent

theorem type_of_parent (h : Consistent root s) {d p : I} (hp : parent s d = some p) : (s d).type = dirType := by
  by_contra hd
  rw [parent, h.plain d hd] at hp
  cases hp

theorem type_of_mem (h : Consistent root s) {d : I} {e : Name × I} (he : e ∈ rest s d) : (s d).type = dirType := by
  by_contra hd
  rw [rest, h.plain d hd] at he
  cases he

theorem parent_eq_none (h : Consistent root s) {d : I} (hd : (s d).type ≠ dirType) : parent s d = none := by
  rw [parent, h.plain d hd]
  rfl

theorem named_free (h : Consistent root s) (hip : (s ip).type = 0) : named s ip = 0 := by
  by_contra hpos
  obtain ⟨d, e, he, rfl⟩ := exists_of_named (Nat.pos_of_ne_zero hpos)
  exact h.target d e he hip

theorem dotted_free (h : Consistent root s) (hip : (s ip).type = 0) : dotted root s ip = 0 := by
  have hdir : (0 : ℕ) ≠ dirType := by decide
  apply Finset.sum_eq_zero
  intro d _
  rw [if_neg]
  rintro ⟨hp, hroot | hpos⟩
  · rw [hroot, h.top.2.1, Option.some.injEq] at hp
    rw [← hp, h.top.1] at hip
    exact hdir hip.symm
  · obtain ⟨d', e, he, rfl⟩ := exists_of_named hpos
    rw [h.up d' e he (h.type_of_parent hp), Option.some.injEq] at hp
    rw [← hp, h.type_of_mem he] at hip
    exact hdir hip.symm

theorem links_free (h : Consistent root s) (hip : (s ip).type = 0) : links root s ip = 0 := by
  unfold links
  rw [h.named_free hip, h.dotted_free hip]

end Consistent

theorem links_add (h : Adds s t dp ip name) (hparent : ∀ d ≠ ip, parent t d = parent s d) (hnone : parent s ip = none) (i : I) :
    links root t i = links root s i + (if ip = i then 1 else 0) + if parent t ip = some i then 1 else 0 := by
  have hdotted : dotted root t i = dotted root s i + if parent t ip = some i then 1 else 0 := by
    have hother : ∀ d ≠ ip, parent t d = some i ∧ Linked root t d ↔ parent s d = some i ∧ Linked root s d := by
      intro d hd
      rw [hparent d hd, h.linked_iff hd]
    have hs : ¬ (parent s ip = some i ∧ Linked root s ip) := by
      rw [hnone]
      rintro ⟨hx, -⟩
      cases hx
    by_cases hp : parent t ip = some i
    · rw [if_pos hp]
      exact dotted_succ hs ⟨hp, h.linked_self⟩ hother
    · rw [if_neg hp, Nat.add_zero]
      apply dotted_congr
      intro d
      by_cases hd : d = ip
      · rw [hd]
        exact ⟨fun hx => absurd hx.1 hp, fun hx => absurd hx hs⟩
      · exact hother d hd
  unfold links
  rw [h.named_eq, hdotted]
  omega

theorem links_remove (h : Adds t s dp ip name) (hparent : ∀ d, parent t d = parent s d)
    (hlast : parent s ip ≠ none → ¬ Linked root t ip) (i : I) :
    links root s i = links root t i + (if ip = i then 1 else 0) + if parent s ip = some i then 1 else 0 := by
  have hdotted : dotted root s i = dotted root t i + if parent s ip = some i then 1 else 0 := by
    have hother : ∀ d ≠ ip, parent s d = some i ∧ Linked root s d ↔ parent t d = some i ∧ Linked root t d := by
      intro d hd
      rw [hparent d, h.linked_iff hd]
    by_cases hp : parent s ip = some i
    · rw [if_pos hp]
      refine dotted_succ ?_ ⟨hp, h.linked_self⟩ hother
      rintro ⟨-, hlinked⟩
      exact hlast (by rw [hp]; exact Option.some_ne_none _) hlinked
    · rw [if_neg hp, Nat.add_zero]
      apply dotted_congr
      intro d
      by_cases hd : d = ip
      · rw [hd, hparent]
        exact ⟨fun hx => absurd hx.1 hp, fun hx => absurd hx.1 hp⟩
      · exact hother d hd
  unfold links
  rw [h.named_eq, hdotted]
  omega

theorem Consistent.add (h : Consistent root s) (hadds : Adds s t dp ip name) (hip : (s ip).type ≠ dirType) (hlinked : Linked root s dp)
    (htype : ∀ i ≠ ip, (t i).type = (s i).type) (hip' : (t ip).type ≠ 0) (hparent : ∀ d ≠ ip, parent t d = parent s d)
    (hnew : (t ip).type = dirType → (s ip).type = 0 ∧ parent t ip = some dp)
    (hdots : ∀ d, (t d).type = dirType → ∃ p es, (t d).dir = (dot, d) :: (dotdot, p) :: es)
    (hplain : ∀ d, (t d).type ≠ dirType → (t d).dir = [])
    (hcount : ∀ i, (t i).type ≠ 0 → (t i).nlink = BitVec.ofNat 16 (links root t i)) (hbound : ∀ i, links root t i ≤ 32767) :
    Consistent root t := by
  have hroot : root ≠ ip := by
    rintro rfl
    exact hip h.top.1
  refine ⟨hdots, hplain, ⟨?_, ?_, ?_⟩, ?_, ?_, ?_, ?_, hcount, hbound⟩
  · rw [htype _ hroot]
    exact h.top.1
  · rw [hparent _ hroot]
    exact h.top.2.1
  · rw [hadds.named_eq, if_neg hroot.symm]
    exact h.top.2.2
  · intro d e he
    by_cases hei : e.2 = ip
    · rw [hei]
      exact hip'
    · rw [htype _ hei]
      rcases hadds.mem_iff.mp he with hold | ⟨-, rfl⟩
      · exact h.target d e hold
      · exact absurd rfl hei
  · intro i hi
    rw [hadds.named_eq]
    split_ifs with hii
    · subst hii
      rw [h.named_free (hnew hi).1]
    · rw [htype i (Ne.symm hii)] at hi
      exact h.once i hi
  · intro d e he hdir
    rcases hadds.mem_iff.mp he with hold | ⟨rfl, rfl⟩
    · by_cases hei : e.2 = ip
      · rw [hei] at hdir
        exact absurd (hei ▸ (hnew hdir).1) (h.target d e hold)
      · rw [hparent _ hei]
        rw [htype _ hei] at hdir
        exact h.up d e hold hdir
    · exact (hnew hdir).2
  · intro d hd
    by_cases hdi : d = ip
    · rw [hdi] at hd
      exact absurd hadds.linked_self hd
    · rw [hadds.linked_iff hdi] at hd
      by_cases hdp : d = dp
      · rw [hdp] at hd
        exact absurd hlinked hd
      · rw [hadds.same d hdp]
        exact h.empty d hd

theorem Consistent.remove (h : Consistent root s) (hadds : Adds t s dp ip name) (htype : ∀ i, (t i).type = (s i).type)
    (hparent : ∀ d, parent t d = parent s d) (hempty : (s ip).type = dirType → rest s ip = [])
    (hdots : ∀ d, (t d).type = dirType → ∃ p es, (t d).dir = (dot, d) :: (dotdot, p) :: es)
    (hplain : ∀ d, (t d).type ≠ dirType → (t d).dir = [])
    (hcount : ∀ i, (t i).type ≠ 0 → (t i).nlink = BitVec.ofNat 16 (links root t i)) (hbound : ∀ i, links root t i ≤ 32767) :
    Consistent root t := by
  have hsub : ∀ d, ∀ e ∈ rest t d, e ∈ rest s d := fun d e he => hadds.mem_iff.mpr (Or.inl he)
  have hnil : ∀ d, rest s d = [] → rest t d = [] := by
    intro d hd
    rw [List.eq_nil_iff_forall_not_mem]
    intro e he
    have := hsub d e he
    rw [hd] at this
    cases this
  have hle : ∀ i, named t i ≤ named s i := fun i => by
    rw [hadds.named_eq]
    omega
  refine ⟨hdots, hplain, ⟨?_, ?_, ?_⟩, ?_, ?_, ?_, ?_, hcount, hbound⟩
  · rw [htype]
    exact h.top.1
  · rw [hparent]
    exact h.top.2.1
  · have := hle root
    rw [h.top.2.2] at this
    omega
  · intro d e he
    rw [htype]
    exact h.target d e (hsub d e he)
  · intro i hi
    rw [htype] at hi
    exact (hle i).trans (h.once i hi)
  · intro d e he hdir
    rw [hparent]
    rw [htype] at hdir
    exact h.up d e (hsub d e he) hdir
  · intro d hd
    apply hnil
    by_cases hdi : d = ip
    · rw [hdi]
      by_cases hdir : (s ip).type = dirType
      · exact hempty hdir
      · rw [rest, h.plain ip hdir]
        rfl
    · rw [← hadds.linked_iff hdi] at hd
      exact h.empty d hd

/-! ### The calls -/

omit [Fintype I] in
theorem addLinks_undo : (s.addLinks ip 1).addLinks ip (-1) = s := by
  unfold St.addLinks
  rw [update_self, update_idem]
  dsimp only
  rw [BitVec.add_assoc, show (1 : BitVec 16) + -1 = 0#16 by decide, BitVec.add_zero]
  exact update_eq_self _ _

theorem Consistent.append (h : Consistent root s) (hdp : (s dp).type = dirType) (x : Name × I) :
    ((s dp).dir ++ [x]).drop 2 = rest s dp ++ [x] ∧ (((s dp).dir ++ [x])[1]?).map Prod.snd = parent s dp ∧
      ∃ p es, (s dp).dir ++ [x] = (dot, dp) :: (dotdot, p) :: es := by
  obtain ⟨p, es, hdir⟩ := h.dots dp hdp
  rw [rest, parent, hdir]
  exact ⟨rfl, rfl, p, es ++ [x], rfl⟩

theorem Consistent.shape (h : Consistent root s) (htype : ∀ i, (t i).type = (s i).type) (hdp : (s dp).type = dirType)
    (hdirs : ∀ d ≠ dp, (t d).dir = (s d).dir) (hdots : ∃ p es, (t dp).dir = (dot, dp) :: (dotdot, p) :: es) :
    (∀ d, (t d).type = dirType → ∃ p es, (t d).dir = (dot, d) :: (dotdot, p) :: es) ∧
      ∀ d, (t d).type ≠ dirType → (t d).dir = [] := by
  constructor
  · intro d hd
    by_cases hdd : d = dp
    · rw [hdd]
      exact hdots
    · rw [hdirs d hdd]
      rw [htype] at hd
      exact h.dots d hd
  · intro d hd
    rw [htype] at hd
    rw [hdirs d (by rintro rfl; exact hd hdp)]
    exact h.plain d hd

theorem Consistent.link (h : Consistent root s) (hip : (s ip).type ≠ 0) (hdir : (s ip).type ≠ dirType) (hdp : (s dp).type = dirType)
    (hlinked : Linked root s dp) (hlt : links root s ip < 32767) :
    Consistent root ((s.addLinks ip 1).putDir dp ((s dp).dir ++ [(name, ip)])) := by
  have hne : dp ≠ ip := by
    rintro rfl
    exact hdir hdp
  obtain ⟨hrest, hpar, hdots⟩ := h.append hdp (name, ip)
  generalize ht : (s.addLinks ip 1).putDir dp ((s dp).dir ++ [(name, ip)]) = t
  have htdp : t dp = { s dp with dir := (s dp).dir ++ [(name, ip)] } := by
    rw [← ht, St.putDir, update_self, St.addLinks, update_of_ne hne]
  have htip : t ip = { s ip with nlink := (s ip).nlink + 1 } := by
    rw [← ht, St.putDir, update_of_ne hne.symm, St.addLinks, update_self]
  have hother : ∀ i ≠ dp, i ≠ ip → t i = s i := by
    intro i hi hi'
    rw [← ht, St.putDir, update_of_ne hi, St.addLinks, update_of_ne hi']
  have htype : ∀ i, (t i).type = (s i).type := by
    intro i
    by_cases hi : i = dp
    · rw [hi, htdp]
    · by_cases hi' : i = ip
      · rw [hi', htip]
      · rw [hother i hi hi']
  have hdirs : ∀ d ≠ dp, (t d).dir = (s d).dir := by
    intro d hd
    by_cases hd' : d = ip
    · rw [hd', htip]
    · rw [hother d hd hd']
  have hparent : ∀ d, parent t d = parent s d := by
    intro d
    by_cases hd : d = dp
    · rw [hd, parent, htdp]
      exact hpar
    · rw [parent, hdirs d hd, ← parent]
  have hadds : Adds s t dp ip name := by
    refine ⟨fun d hd => by rw [rest, hdirs d hd, ← rest], ?_⟩
    rw [rest, htdp, hrest]
    exact List.perm_append_singleton _ _
  have hnone := h.parent_eq_none hdir
  have hlinks : ∀ i, links root t i = links root s i + if ip = i then 1 else 0 := by
    intro i
    rw [links_add hadds (fun d _ => hparent d) hnone, hparent, hnone, if_neg (Option.some_ne_none _).symm, Nat.add_zero]
  obtain ⟨hdots', hplain⟩ := h.shape htype hdp hdirs (by rw [htdp]; exact hdots)
  refine h.add hadds hdir hlinked (fun i _ => htype i) (by rw [htype]; exact hip) (fun d _ => hparent d) ?_ hdots' hplain ?_ ?_
  · intro hx
    rw [htype] at hx
    exact absurd hx hdir
  · intro i hi
    rw [htype] at hi
    rw [hlinks]
    by_cases hii : ip = i
    · subst hii
      rw [if_pos rfl, htip, BitVec.ofNat_add, ← h.count _ hi]
      rfl
    · rw [if_neg hii, Nat.add_zero, ← h.count i hi]
      by_cases hid : i = dp
      · rw [hid, htdp]
      · rw [hother i hid (Ne.symm hii)]
  · intro i
    have := h.bound i
    rw [hlinks]
    split_ifs with hii
    · subst hii
      omega
    · omega

theorem Consistent.create (h : Consistent root s) (hdp : (s dp).type = dirType) (hinum : (s inum).type = 0) (htype0 : type ≠ 0)
    (hlinked : Linked root s dp) (hlt : type = dirType → links root s dp < 32767) (name : Name) (t : St I)
    (htdp : t dp = ⟨(s dp).type, if type = dirType then (s dp).nlink + 1 else (s dp).nlink, (s dp).dir ++ [(name, inum)],
      (s dp).data⟩)
    (htinum : t inum = ⟨type, 1, if type = dirType then [(dot, inum), (dotdot, dp)] else [], []⟩)
    (hother : ∀ i ≠ dp, i ≠ inum → t i = s i) : Consistent root t := by
  have hdir0 : (0 : ℕ) ≠ dirType := by decide
  have hne : dp ≠ inum := by
    rintro rfl
    rw [hdp] at hinum
    exact hdir0 hinum.symm
  have hdir : (s inum).type ≠ dirType := by
    rw [hinum]
    exact hdir0
  obtain ⟨hrest, hpar, hdots⟩ := h.append hdp (name, inum)
  have htype : ∀ i ≠ inum, (t i).type = (s i).type := by
    intro i hi
    by_cases hid : i = dp
    · rw [hid, htdp]
    · rw [hother i hid hi]
  have hparent : ∀ d ≠ inum, parent t d = parent s d := by
    intro d hd
    by_cases hdd : d = dp
    · rw [hdd, parent, htdp]
      exact hpar
    · rw [parent, hother d hdd hd, ← parent]
  have hadds : Adds s t dp inum name := by
    refine ⟨fun d hd => ?_, ?_⟩
    · by_cases hd' : d = inum
      · rw [hd', rest, rest, htinum, h.plain inum hdir]
        dsimp only
        split_ifs <;> rfl
      · rw [rest, hother d hd hd', ← rest]
    · rw [rest, htdp, hrest]
      exact List.perm_append_singleton _ _
  have hup : parent t inum = if type = dirType then some dp else none := by
    rw [parent, htinum]
    dsimp only
    split_ifs <;> rfl
  have hlinks : ∀ i, links root t i = links root s i + (if inum = i then 1 else 0) + if type = dirType ∧ dp = i then 1 else 0 := by
    intro i
    have hiff : parent t inum = some i ↔ type = dirType ∧ dp = i := by
      rw [hup]
      split_ifs with hty
      · rw [Option.some.injEq]
        exact ⟨fun hx => ⟨hty, hx⟩, fun hx => hx.2⟩
      · exact ⟨fun hx => hx.elim, fun hx => absurd hx.1 hty⟩
    rw [links_add hadds hparent (h.parent_eq_none hdir)]
    simp only [hiff]
  have hfree := h.links_free hinum
  refine h.add hadds hdir hlinked htype (by rw [htinum]; exact htype0) hparent ?_ ?_ ?_ ?_ ?_
  · intro hx
    rw [htinum] at hx
    rw [hup, if_pos hx]
    exact ⟨hinum, rfl⟩
  · intro d hd
    by_cases hdd : d = dp
    · rw [hdd, htdp]
      exact hdots
    · by_cases hdi : d = inum
      · rw [hdi, htinum] at hd ⊢
        dsimp only at hd ⊢
        rw [if_pos hd]
        exact ⟨dp, [], rfl⟩
      · rw [hother d hdd hdi] at hd ⊢
        exact h.dots d hd
  · intro d hd
    by_cases hdd : d = dp
    · rw [hdd, htdp] at hd
      exact absurd hdp hd
    · by_cases hdi : d = inum
      · rw [hdi, htinum] at hd ⊢
        dsimp only at hd ⊢
        rw [if_neg hd]
      · rw [hother d hdd hdi] at hd ⊢
        exact h.plain d hd
  · intro i hi
    rw [hlinks i]
    by_cases hii : inum = i
    · subst hii
      rw [hfree, if_pos rfl, if_neg (fun hx => hne hx.2), htinum]
      rfl
    · rw [if_neg hii, Nat.add_zero]
      rw [htype i (Ne.symm hii)] at hi
      by_cases hid : dp = i
      · subst hid
        by_cases hty : type = dirType
        · rw [if_pos ⟨hty, rfl⟩, BitVec.ofNat_add, ← h.count _ hi, htdp]
          dsimp only
          rw [if_pos hty]
          rfl
        · rw [if_neg (fun hx => hty hx.1), Nat.add_zero, ← h.count _ hi, htdp]
          dsimp only
          rw [if_neg hty]
      · rw [if_neg (fun hx => hid hx.2), Nat.add_zero, hother i (Ne.symm hid) (Ne.symm hii)]
        exact h.count i hi
  · intro i
    have hb := h.bound i
    rw [hlinks i]
    by_cases hii : inum = i
    · subst hii
      rw [hfree, if_pos rfl, if_neg (fun hx => hne hx.2)]
      omega
    · rw [if_neg hii]
      split_ifs with hx
      · obtain ⟨hty, rfl⟩ := hx
        have := hlt hty
        omega
      · omega

omit [Fintype I] [DecidableEq I] in
theorem perm_clear {d : List (Name × I)} (h : dirlookup d name = some ip) : d.Perm ((name, ip) :: clear d name) := by
  obtain ⟨e, he, rfl⟩ := Option.map_eq_some_iff.mp h
  obtain ⟨hname, as, bs, rfl, has⟩ := List.find?_eq_some_iff_append.mp he
  have hclear : clear (as ++ e :: bs) name = as ++ bs := by
    unfold clear
    rw [List.eraseP_append_right _ (fun b hb => by simpa using has b hb), List.eraseP_cons_of_pos (p := fun e : Name × I => decide (e.1 = name)) hname]
  rw [decide_eq_true_eq] at hname
  rw [hclear, ← hname]
  exact List.perm_middle

theorem Consistent.lookup (h : Consistent root s) (hdp : (s dp).type = dirType) (hdot : ¬ (name = dot ∨ name = dotdot))
    (hlook : dirlookup (s dp).dir name = some ip) : ∃ p, (s dp).dir = (dot, dp) :: (dotdot, p) :: rest s dp ∧
      dirlookup (rest s dp) name = some ip ∧ clear (s dp).dir name = (dot, dp) :: (dotdot, p) :: clear (rest s dp) name := by
  obtain ⟨p, es, hdir⟩ := h.dots dp hdp
  have hrest : rest s dp = es := by
    rw [rest, hdir]
    rfl
  have hd1 : ¬ dot = name := fun hx => hdot (Or.inl hx.symm)
  have hd2 : ¬ dotdot = name := fun hx => hdot (Or.inr hx.symm)
  rw [hrest]
  refine ⟨p, hdir, ?_, ?_⟩
  · rw [hdir, dirlookup, List.find?_cons_of_neg (by simpa using hd1), List.find?_cons_of_neg (by simpa using hd2)] at hlook
    exact hlook
  · rw [hdir, clear, List.eraseP_cons_of_neg (by simpa using hd1), List.eraseP_cons_of_neg (by simpa using hd2), ← clear]

theorem Consistent.unlink (h : Consistent root s) (hdp : (s dp).type = dirType) (hdot : ¬ (name = dot ∨ name = dotdot))
    (hlook : dirlookup (s dp).dir name = some ip) (hempty : (s ip).type = dirType → isdirempty (s ip).dir = true) (t : St I)
    (hne : dp ≠ ip) (htdp : t dp = ⟨(s dp).type, if (s ip).type = dirType then (s dp).nlink + -1 else (s dp).nlink,
      clear (s dp).dir name, (s dp).data⟩)
    (htip : t ip = { s ip with nlink := (s ip).nlink + -1 }) (hother : ∀ i ≠ dp, i ≠ ip → t i = s i) : Consistent root t := by
  obtain ⟨p, hdir, hlook', hclear⟩ := h.lookup hdp hdot hlook
  have htype : ∀ i, (t i).type = (s i).type := by
    intro i
    by_cases hi : i = dp
    · rw [hi, htdp]
    · by_cases hi' : i = ip
      · rw [hi', htip]
      · rw [hother i hi hi']
  have hdirs : ∀ d ≠ dp, (t d).dir = (s d).dir := by
    intro d hd
    by_cases hd' : d = ip
    · rw [hd', htip]
    · rw [hother d hd hd']
  have hparent : ∀ d, parent t d = parent s d := by
    intro d
    by_cases hd : d = dp
    · rw [hd, parent, parent, htdp]
      dsimp only
      rw [hclear, hdir]
      rfl
    · rw [parent, hdirs d hd, ← parent]
  have hadds : Adds t s dp ip name := by
    refine ⟨fun d hd => by rw [rest, rest, hdirs d hd], ?_⟩
    have hrest : rest t dp = clear (rest s dp) name := by
      rw [rest, htdp]
      dsimp only
      rw [hclear]
      rfl
    rw [hrest]
    exact perm_clear hlook'
  have hmem : (name, ip) ∈ rest s dp := hadds.mem_iff.mpr (Or.inr ⟨rfl, rfl⟩)
  have hup : (s ip).type = dirType → parent s ip = some dp := h.up dp (name, ip) hmem
  -- the name was the directory's only one
  have hlast : parent s ip ≠ none → ¬ Linked root t ip := by
    intro hp
    obtain ⟨q, hq⟩ := Option.ne_none_iff_exists'.mp hp
    have honce := h.once ip (h.type_of_parent hq)
    have hnamed := hadds.named_eq ip
    rw [if_pos rfl] at hnamed
    rintro (hroot | hpos)
    · have := h.top.2.2
      rw [← hroot] at this
      omega
    · omega
  have hlinks : ∀ i, links root s i = links root t i + (if ip = i then 1 else 0) + if (s ip).type = dirType ∧ dp = i then 1 else 0 := by
    intro i
    have hiff : parent s ip = some i ↔ (s ip).type = dirType ∧ dp = i := by
      constructor
      · intro hp
        have hty := h.type_of_parent hp
        rw [hup hty, Option.some.injEq] at hp
        exact ⟨hty, hp⟩
      · rintro ⟨hty, rfl⟩
        exact hup hty
    rw [links_remove hadds hparent hlast]
    simp only [hiff]
  have hback : ∀ n : ℕ, BitVec.ofNat 16 (n + 1) + -1 = BitVec.ofNat 16 n := by
    intro n
    rw [BitVec.ofNat_add, BitVec.add_assoc, show BitVec.ofNat 16 1 + -1 = 0#16 by decide, BitVec.add_zero]
  obtain ⟨hdots, hplain⟩ := h.shape htype hdp hdirs (by rw [htdp]; exact ⟨p, _, hclear⟩)
  refine h.remove hadds htype hparent ?_ hdots hplain ?_ ?_
  · intro hty
    exact List.isEmpty_iff.mp (hempty hty)
  · intro i hi
    rw [htype] at hi
    have hcount := h.count i hi
    rw [hlinks i] at hcount
    by_cases hii : ip = i
    · subst hii
      rw [if_pos rfl, if_neg (fun hx => hne hx.2), Nat.add_zero] at hcount
      rw [htip, hcount]
      exact hback _
    · rw [if_neg hii, Nat.add_zero] at hcount
      by_cases hid : dp = i
      · subst hid
        rw [htdp]
        by_cases hty : (s ip).type = dirType
        · rw [if_pos ⟨hty, rfl⟩] at hcount
          dsimp only
          rw [if_pos hty, hcount]
          exact hback _
        · rw [if_neg (fun hx => hty hx.1), Nat.add_zero] at hcount
          dsimp only
          rw [if_neg hty]
          exact hcount
      · rw [if_neg (fun hx => hid hx.2), Nat.add_zero] at hcount
        rw [hother i (Ne.symm hid) (Ne.symm hii)]
        exact hcount
  · intro i
    have hb := h.bound i
    have := hlinks i
    omega

theorem Consistent.toInt_nlink (h : Consistent root s) (hip : (s ip).type ≠ 0) : (s ip).nlink.toInt = links root s ip := by
  have hb := h.bound ip
  have hnat : (BitVec.ofNat 16 (links root s ip)).toNat = links root s ip := by
    rw [BitVec.toNat_ofNat]
    exact Nat.mod_eq_of_lt (by omega)
  rw [h.count ip hip, BitVec.toInt_eq_toNat_of_lt (by omega), hnat]

theorem Consistent.links_of_zero (h : Consistent root s) (hip : (s ip).type ≠ 0) (hz : (s ip).nlink = 0) : links root s ip = 0 := by
  have hint := h.toInt_nlink hip
  rw [hz] at hint
  exact Int.ofNat_eq_zero.mp hint.symm

theorem Consistent.iput (h : Consistent root s) (hip : (s ip).type ≠ 0) : Consistent root (iput s ip) := by
  unfold Links.iput
  split_ifs with hz
  swap
  · exact h
  have hlinks := h.links_of_zero hip hz
  have hnot : ¬ Linked root s ip := by
    rintro (hroot | hpos)
    · have hpos : 0 < dotted root s root := by
        apply Finset.sum_pos' (fun _ _ => Nat.zero_le _)
        refine ⟨root, Finset.mem_univ _, ?_⟩
        rw [if_pos ⟨h.top.2.1, Or.inl rfl⟩]
        exact Nat.one_pos
      rw [hroot, links] at hlinks
      omega
    · rw [links] at hlinks
      omega
  generalize ht : update s ip ⟨0, (s ip).nlink, [], []⟩ = t
  have htip : t ip = ⟨0, (s ip).nlink, [], []⟩ := by
    rw [← ht, update_self]
  have hother : ∀ i ≠ ip, t i = s i := by
    intro i hi
    rw [← ht, update_of_ne hi]
  have hrest : ∀ d, rest t d = rest s d := by
    intro d
    by_cases hd : d = ip
    · rw [hd, h.empty ip hnot, rest, htip]
      rfl
    · rw [rest, hother d hd, ← rest]
  have hnamed : ∀ i, named t i = named s i := by
    intro i
    unfold named
    simp only [hrest]
  have hroot : root ≠ ip := fun hx => hnot (Or.inl hx.symm)
  have hdir0 : (0 : ℕ) ≠ dirType := by decide
  have hall : ∀ i, links root t i = links root s i := by
    intro i
    unfold links
    rw [hnamed]
    congr 1
    apply dotted_congr
    intro d
    unfold Linked
    rw [hnamed]
    by_cases hd : d = ip
    · rw [hd]
      exact ⟨fun hx => absurd hx.2 hnot, fun hx => absurd hx.2 hnot⟩
    · rw [parent, hother d hd, ← parent]
  have hne : ∀ d, ∀ e ∈ rest s d, e.2 ≠ ip := by
    rintro d e he rfl
    exact hnot (Or.inr (named_pos he))
  refine ⟨?_, ?_, ⟨?_, ?_, ?_⟩, ?_, ?_, ?_, ?_, ?_, ?_⟩
  · intro d hd
    by_cases hdi : d = ip
    · rw [hdi, htip] at hd
      exact absurd hd hdir0
    · rw [hother d hdi] at hd ⊢
      exact h.dots d hd
  · intro d hd
    by_cases hdi : d = ip
    · rw [hdi, htip]
    · rw [hother d hdi] at hd ⊢
      exact h.plain d hd
  · rw [hother _ hroot]
    exact h.top.1
  · rw [parent, hother _ hroot]
    exact h.top.2.1
  · rw [hnamed]
    exact h.top.2.2
  · intro d e he
    rw [hrest] at he
    rw [hother _ (hne d e he)]
    exact h.target d e he
  · intro i hi
    rw [hnamed]
    by_cases hii : i = ip
    · rw [hii, htip] at hi
      exact absurd hi hdir0
    · rw [hother i hii] at hi
      exact h.once i hi
  · intro d e he hty
    rw [hrest] at he
    rw [hother _ (hne d e he)] at hty
    rw [parent, hother _ (hne d e he)]
    exact h.up d e he hty
  · intro d hd
    unfold Linked at hd
    rw [hnamed] at hd
    rw [hrest]
    exact h.empty d hd
  · intro i hi
    rw [hall]
    by_cases hii : i = ip
    · rw [hii, htip] at hi
      exact absurd rfl hi
    · rw [hother i hii] at hi ⊢
      exact h.count i hi
  · intro i
    rw [hall]
    exact h.bound i

omit [Fintype I] [DecidableEq I] in
theorem makeDots_eq : makeDots inum dp = .ok [(dot, inum), (dotdot, dp)] := by
  have h1 : dirlink ([] : List (Name × I)) dot inum = .ok (some [(dot, inum)]) := rfl
  have h2 : dirlink [(dot, inum)] dotdot dp = .ok (some [(dot, inum), (dotdot, dp)]) := by
    simp [dirlink, dirlookup, dot, dotdot, maxEntries, maxFile, nDirect, nIndirect, bSize, direntSize]
  unfold makeDots
  rw [h1]
  dsimp only
  rw [h2]

omit [Fintype I] in
theorem create_eq (hne : dp ≠ inum) (hlook : dirlookup (s dp).dir name = none) (type : ℕ) :
    ∃ t : St I, create s (some dp) name type inum = (if (s dp).dir.length < maxEntries then .ok (some inum, t) else .error "dirlink") ∧
      t dp = ⟨(s dp).type, if type = dirType then (s dp).nlink + 1 else (s dp).nlink, (s dp).dir ++ [(name, inum)], (s dp).data⟩ ∧
      t inum = ⟨type, 1, if type = dirType then [(dot, inum), (dotdot, dp)] else [], []⟩ ∧ ∀ i ≠ dp, i ≠ inum → t i = s i := by
  have hdots : ∃ u : St I, createDots (update s inum ⟨type, 1, [], []⟩) dp type inum = .ok u ∧
      u dp = ⟨(s dp).type, if type = dirType then (s dp).nlink + 1 else (s dp).nlink, (s dp).dir, (s dp).data⟩ ∧
      u inum = ⟨type, 1, if type = dirType then [(dot, inum), (dotdot, dp)] else [], []⟩ ∧ ∀ i ≠ dp, i ≠ inum → u i = s i := by
    unfold createDots
    by_cases hty : type = dirType
    · rw [if_pos hty, makeDots_eq]
      refine ⟨_, rfl, ?_, ?_, ?_⟩
      · simp [St.addLinks, St.putDir, update_of_ne hne, hty]
      · simp [St.addLinks, St.putDir, update_of_ne hne.symm, hty]
      · intro i hi hi'
        simp [St.addLinks, St.putDir, update_of_ne hi, update_of_ne hi']
    · rw [if_neg hty]
      refine ⟨_, rfl, ?_, ?_, ?_⟩
      · simp [update_of_ne hne, hty]
      · simp [hty]
      · intro i _ hi'
        simp [update_of_ne hi']
  obtain ⟨u, hu, hudp, huinum, huother⟩ := hdots
  refine ⟨u.putDir dp ((s dp).dir ++ [(name, inum)]), ?_, ?_, ?_, ?_⟩
  · have hdir : (u dp).dir = (s dp).dir := by rw [hudp]
    simp only [create, hlook, hu, hdir, dirlink]
    split_ifs <;> rfl
  · rw [St.putDir, update_self, hudp]
  · rw [St.putDir, update_of_ne hne.symm, huinum]
  · intro i hi hi'
    rw [St.putDir, update_of_ne hi, huother i hi hi']

omit [Fintype I] in
theorem sysLink_eq (hdir : (s ip).type ≠ dirType) (hne : dp ≠ ip) :
    sysLink s (some ip) (some dp) name = if dirlookup (s dp).dir name ≠ none then .ok (-1, s)
      else if (s dp).dir.length < maxEntries then .ok (0, (s.addLinks ip 1).putDir dp ((s dp).dir ++ [(name, ip)]))
      else .error "dirlink" := by
  have hsame : (s.addLinks ip 1) dp = s dp := update_of_ne hne _ _
  simp only [sysLink, if_neg hdir, hsame, dirlink]
  cases hlook : dirlookup (s dp).dir name with
  | some i =>
    dsimp only
    rw [addLinks_undo, if_pos (Option.some_ne_none _)]
  | none =>
    dsimp only
    rw [if_neg (not_not.mpr rfl)]
    split_ifs <;> rfl

theorem Consistent.sysUnlink (h : Consistent root s) (hdp : (s dp).type = dirType) (name : Name) :
    ∃ r t, sysUnlink s dp name = .ok (r, t) ∧ Consistent root t := by
  unfold Links.sysUnlink
  split_ifs with hdot
  · exact ⟨-1, s, rfl, h⟩
  · cases hlook : dirlookup (s dp).dir name with
    | none => exact ⟨-1, s, rfl, h⟩
    | some ip =>
      dsimp only
      obtain ⟨-, -, hlook', -⟩ := h.lookup hdp hdot hlook
      obtain ⟨e, hfind, rfl⟩ := Option.map_eq_some_iff.mp hlook'
      have he := List.mem_of_find?_eq_some hfind
      have hty := h.target dp e he
      have hpos := named_pos he
      have hint := h.toInt_nlink hty
      rw [if_neg (by rw [hint, links]; omega)]
      split_ifs with hfull hdir'
      · exact ⟨-1, s, rfl, h⟩
      · have hempty : (s e.2).type = dirType → isdirempty (s e.2).dir = true := by
          intro hx
          rw [← Bool.not_eq_false]
          exact fun hf => hfull ⟨hx, hf⟩
        have hne : dp ≠ e.2 := by
          intro hx
          have hnil := List.isEmpty_iff.mp (hempty hdir')
          rw [← hx] at hnil
          rw [rest, hnil] at he
          cases he
        refine ⟨0, _, rfl, h.unlink hdp hdot hlook hempty _ hne ?_ ?_ ?_⟩
        · simp [St.addLinks, St.putDir, update_of_ne hne, hdir']
        · simp [St.addLinks, St.putDir, update_of_ne hne.symm]
        · intro i hi hi'
          simp [St.addLinks, St.putDir, update_of_ne hi, update_of_ne hi']
      · have hne : dp ≠ e.2 := by
          intro hx
          rw [← hx] at hdir'
          exact hdir' hdp
        refine ⟨0, _, rfl, h.unlink hdp hdot hlook (fun hx => absurd hx hdir') _ hne ?_ ?_ ?_⟩
        · simp [St.addLinks, St.putDir, update_of_ne hne, hdir']
        · simp [St.addLinks, St.putDir, update_of_ne hne.symm]
        · intro i hi hi'
          simp [St.addLinks, St.putDir, update_of_ne hi, update_of_ne hi']

theorem Consistent.step (h : Consistent root s) {c : Call I} (hready : Ready s c) (hwithin : Within root s c)
    (hstep : step s c = some t) : Consistent root t := by
  cases c with
  | link ip dp name =>
    obtain ⟨⟨r, t'⟩, hcall, rfl⟩ := Option.map_eq_some_iff.mp hstep
    have hok := ok_of_toOption hcall
    by_cases hdir : (s ip).type = dirType
    · simp only [sysLink, if_pos hdir, Except.ok.injEq, Prod.mk.injEq] at hok
      rw [← hok.2]
      exact h
    · cases dp with
      | none =>
        simp only [sysLink, if_neg hdir, addLinks_undo, Except.ok.injEq, Prod.mk.injEq] at hok
        rw [← hok.2]
        exact h
      | some dp =>
        have hdp := hready.2 dp rfl
        have hne : dp ≠ ip := by
          rintro rfl
          exact hdir hdp
        rw [sysLink_eq hdir hne] at hok
        split_ifs at hok with hlook hroom
        · rw [Except.ok.injEq, Prod.mk.injEq] at hok
          rw [← hok.2]
          exact h
        · rw [Except.ok.injEq, Prod.mk.injEq] at hok
          obtain ⟨hlinked, hlt⟩ := hwithin dp rfl
          rw [← hok.2]
          exact h.link hready.1 hdir hdp hlinked hlt
  | unlink dp name =>
    obtain ⟨r, t', hok, hcons⟩ := h.sysUnlink hready name
    rw [Links.step, hok] at hstep
    cases hstep
    exact hcons
  | create dp name type inum =>
    obtain ⟨hdp, hinum, htype⟩ := hready
    obtain ⟨hlinked, hlt⟩ := hwithin
    obtain ⟨⟨r, t'⟩, hcall, rfl⟩ := Option.map_eq_some_iff.mp hstep
    have hok := ok_of_toOption hcall
    cases hlook : dirlookup (s dp).dir name with
    | some i =>
      simp only [Links.create, hlook, Except.ok.injEq, Prod.mk.injEq] at hok
      rw [← hok.2]
      exact h
    | none =>
      have hne : dp ≠ inum := by
        rintro rfl
        rw [hdp] at hinum
        exact absurd hinum (by decide)
      obtain ⟨u, hu, hudp, huinum, huother⟩ := create_eq hne hlook type
      rw [hu] at hok
      split_ifs at hok
      rw [Except.ok.injEq, Prod.mk.injEq] at hok
      rw [← hok.2]
      exact h.create hdp hinum htype hlinked hlt name u hudp huinum huother
  | iput ip =>
    cases hstep
    exact h.iput hready

end Xv6.Links
