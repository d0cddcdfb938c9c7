import Xv6.Links.Runs

namespace Xv6.Links

open Lib Lib.Transition Fs
open Function (update_of_ne update_self)

variable {I : Type} {root : I} {s t : St I} {c : Call I}

def names (s : St I) (d : I) : List Name := (s d).dir.map Prod.fst

def walk (s : St I) : I → List Name → Option I
  | d, [] => some d
  | d, name :: path => (dirlookup (s d).dir name).bind (fun i => walk s i path)

theorem walk_append (d : I) (path : List Name) (name : Name) :
    walk s d (path ++ [name]) = (walk s d path).bind (fun i => dirlookup (s i).dir name) := by
  induction path generalizing d with
  | nil => simp [walk]
  | cons x path ih =>
    simp only [List.cons_append, walk, ih, Option.bind_assoc]

inductive Reached (root : I) (s : St I) : I → Prop
  | root : Reached root s root
  | entry {d : I} {e : Name × I} (hd : Reached root s d) (he : e ∈ rest s d) : Reached root s e.2

/-! ### What a call does to a directory -/

inductive Edit (s t : St I) (d : I) : Prop
  | sub (h : (t d).dir.Sublist (s d).dir)
  | add {name : Name} {i : I} (hnew : dirlookup (s d).dir name = none) (hd : (s d).type = dirType) (hi : (s i).type ≠ dirType)
      (h : (t d).dir = (s d).dir ++ [(name, i)])
  | dots {p : I} (h : (t d).dir = [(dot, d), (dotdot, p)])

theorem Edit.same {d : I} (h : (t d).dir = (s d).dir) : Edit s t d := by
  apply Edit.sub
  rw [h]

theorem find_of_mem {d : List (Name × I)} {e : Name × I} (h : (d.map Prod.fst).Nodup) (he : e ∈ d) :
    d.find? (fun e' => e'.1 = e.1) = some e := by
  induction d with
  | nil => cases he
  | cons a d ih =>
    rw [List.map_cons, List.nodup_cons] at h
    rcases List.mem_cons.mp he with rfl | he
    · exact List.find?_cons_of_pos (by simp)
    · have hne : ¬ a.1 = e.1 := fun hx => h.1 (hx ▸ List.mem_map_of_mem he)
      rw [List.find?_cons_of_neg (by simpa using hne)]
      exact ih h.2 he

theorem Edit.distinct {d : I} (h : Edit s t d) (hs : (names s d).Nodup) : (names t d).Nodup := by
  cases h with
  | sub h => exact hs.sublist (h.map _)
  | @add name i hnew hd hi h =>
    rw [names, h, List.map_append, List.nodup_append]
    refine ⟨hs, List.nodup_singleton _, ?_⟩
    rintro a ha b hb rfl
    obtain ⟨e, he, rfl⟩ := List.mem_map.mp ha
    rw [List.map_singleton, List.mem_singleton] at hb
    dsimp only at hb
    rw [dirlookup, ← hb, find_of_mem hs he] at hnew
    cases hnew
  | dots h =>
    rw [names, h]
    change [dot, dotdot].Nodup
    decide

variable [DecidableEq I]

theorem dir_addLinks (s : St I) (i d : I) (k : BitVec 16) : (s.addLinks i k d).dir = (s d).dir := by
  by_cases hd : d = i
  · rw [hd, St.addLinks, update_self]
  · rw [St.addLinks, update_of_ne hd]

theorem dir_putDir (s : St I) (d : I) (es : List (Name × I)) : (s.putDir d es d).dir = es := by
  rw [St.putDir, update_self]

theorem dir_putDir_of_ne {d i : I} {es : List (Name × I)} (h : d ≠ i) : (s.putDir i es d).dir = (s d).dir := by
  rw [St.putDir, update_of_ne h]

theorem edit_of_unlink {dp : I} {name : Name} {r : ℤ} (hok : sysUnlink s dp name = .ok (r, t)) (d : I) : Edit s t d := by
  unfold sysUnlink at hok
  split_ifs at hok
  · cases hok
    exact .same rfl
  · cases hlook : dirlookup (s dp).dir name with
    | none =>
      rw [hlook] at hok
      cases hok
      exact .same rfl
    | some ip =>
      rw [hlook] at hok
      dsimp only at hok
      split_ifs at hok
      · cases hok
        exact .same rfl
      all_goals
        cases hok
        by_cases hd : d = dp
        · apply Edit.sub
          simp only [hd, dir_addLinks, dir_putDir]
          exact List.eraseP_sublist
        · apply Edit.same
          simp only [dir_addLinks, dir_putDir_of_ne hd]

theorem edit_of_step (hready : Ready s c) (hstep : step s c = some t) (d : I) : Edit s t d := by
  cases c with
  | link ip dp name =>
    obtain ⟨⟨r, t'⟩, hcall, rfl⟩ := Option.map_eq_some_iff.mp hstep
    have hok := ok_of_toOption hcall
    by_cases hdir : (s ip).type = dirType
    · simp only [sysLink, if_pos hdir, Except.ok.injEq, Prod.mk.injEq] at hok
      rw [← hok.2]
      exact .same rfl
    · cases dp with
      | none =>
        simp only [sysLink, if_neg hdir, addLinks_undo, Except.ok.injEq, Prod.mk.injEq] at hok
        rw [← hok.2]
        exact .same rfl
      | some dp =>
        have hdp := hready.2 dp rfl
        have hne : dp ≠ ip := by
          rintro rfl
          exact hdir hdp
        rw [sysLink_eq hdir hne] at hok
        split_ifs at hok with hlook hroom
        · cases hok
          exact .same rfl
        · cases hok
          by_cases hd : d = dp
          · rw [hd]
            exact .add (not_not.mp hlook) hdp hdir (dir_putDir _ _ _)
          · apply Edit.same
            rw [dir_putDir_of_ne hd, dir_addLinks]
  | unlink dp name =>
    obtain ⟨⟨r, t'⟩, hcall, rfl⟩ := Option.map_eq_some_iff.mp hstep
    exact edit_of_unlink (ok_of_toOption hcall) d
  | create dp name type inum =>
    obtain ⟨hdp, hinum, -⟩ := hready
    obtain ⟨⟨r, t'⟩, hcall, rfl⟩ := Option.map_eq_some_iff.mp hstep
    have hok := ok_of_toOption hcall
    cases hlook : dirlookup (s dp).dir name with
    | some i =>
      simp only [create, hlook, Except.ok.injEq, Prod.mk.injEq] at hok
      rw [← hok.2]
      exact .same rfl
    | none =>
      have hdir : (s inum).type ≠ dirType := by
        rw [hinum]
        decide
      have hne : dp ≠ inum := by
        rintro rfl
        exact hdir hdp
      obtain ⟨u, hu, hudp, huinum, huother⟩ := create_eq hne hlook type
      rw [hu] at hok
      split_ifs at hok
      cases hok
      dsimp only
      by_cases hd : d = dp
      · rw [hd]
        exact .add hlook hdp hdir (by rw [hudp])
      · by_cases hi : d = inum
        · subst hi
          by_cases hty : type = dirType
          · exact .dots (by rw [huinum, if_pos hty])
          · apply Edit.sub
            rw [huinum, if_neg hty]
            exact List.nil_sublist _
        · exact .same (by rw [huother d hd hi])
  | iput ip =>
    cases hstep
    unfold iput
    split_ifs
    · by_cases hd : d = ip
      · apply Edit.sub
        rw [hd, update_self]
        exact List.nil_sublist _
      · exact .same (by rw [update_of_ne hd])
    · exact .same rfl

variable [Fintype I]

structure Tree (root : I) (s : St I) : Prop extends Consistent root s where
  distinct : ∀ d, (names s d).Nodup
  reached : ∀ d, Linked root s d → (s d).type = dirType → Reached root s d

theorem Edit.old_or_new {d : I} (h : Edit s t d) (hs : Consistent root s) (ht : Consistent root t) (hnames : (names t d).Nodup)
    {e : Name × I} (he : e ∈ rest t d) : e ∈ rest s d ∨ (s d).type = dirType ∧ (s e.2).type ≠ dirType := by
  cases h with
  | sub h =>
    obtain ⟨p, es, hdots⟩ := ht.dots d (ht.type_of_mem he)
    have hdir : (s d).type = dirType := by
      by_contra hdir
      rw [hs.plain d hdir, hdots] at h
      cases h
    obtain ⟨q, es', hdots'⟩ := hs.dots d hdir
    -- the names of the first two entries are no others'
    rw [rest, hdots] at he
    rw [names, hdots] at hnames
    rw [hdots, hdots'] at h
    have hmem := h.subset (List.mem_cons_of_mem _ (List.mem_cons_of_mem _ he))
    have hname := List.mem_map_of_mem (f := Prod.fst) he
    simp only [List.map_cons, List.nodup_cons, List.mem_cons, not_or] at hnames
    left
    rw [rest, hdots']
    rcases List.mem_cons.mp hmem with rfl | hmem
    · exact absurd hname hnames.1.2
    · rcases List.mem_cons.mp hmem with rfl | hmem
      · exact absurd hname hnames.2.1
      · exact hmem
  | @add name i hnew hd hi h =>
    rw [rest, h, (hs.append hd (name, i)).1, List.mem_append, List.mem_singleton] at he
    rcases he with he | rfl
    · exact .inl he
    · exact .inr ⟨hd, hi⟩
  | dots h =>
    rw [rest, h] at he
    cases he

/-! ### Reachability -/

theorem Consistent.linked_of_mem (h : Consistent root s) {d : I} {e : Name × I} (he : e ∈ rest s d) : Linked root s d := by
  by_contra hnot
  rw [h.empty d hnot] at he
  cases he

section

variable (h : Tree root s) (ht : Consistent root t)
  (hnew : ∀ d, ∀ e ∈ rest t d, e ∈ rest s d ∨ (s d).type = dirType ∧ (s e.2).type ≠ dirType)

include h ht hnew

-- a directory keeps its only name, which is in the directory it is reached from
theorem Tree.still_reached {d : I} (hd : Reached root s d) (hdir : (s d).type = dirType) (hlinked : Linked root t d) :
    Reached root t d := by
  induction hd with
  | root => exact .root
  | @entry d' e hd' he ih =>
    rcases hlinked with hroot | hpos
    · rw [hroot]
      exact .root
    · obtain ⟨d₁, e₁, he₁, heq⟩ := exists_of_named hpos
      rw [← heq] at hdir ⊢
      have hold := (hnew d₁ e₁ he₁).resolve_right (fun hx => hx.2 hdir)
      have hup := h.up d₁ e₁ hold hdir
      rw [heq] at hdir
      rw [heq, h.up d' e he hdir, Option.some.injEq] at hup
      subst hup
      exact .entry (ih (h.type_of_mem he) (ht.linked_of_mem he₁)) he₁

theorem Tree.reached_step {d : I} (hlinked : Linked root t d) (hdir : (t d).type = dirType) : Reached root t d := by
  have hold {j : I} (hj : (s j).type = dirType) (hl : Linked root t j) : Reached root t j := by
    apply h.still_reached ht hnew (h.reached j _ hj) hj hl
    rcases hl with hroot | hpos
    · exact .inl hroot
    · obtain ⟨d₁, e₁, he₁, rfl⟩ := exists_of_named hpos
      exact .inr (named_pos ((hnew d₁ e₁ he₁).resolve_right (fun hx => hx.2 hj)))
  by_cases hs : (s d).type = dirType
  · exact hold hs hlinked
  · rcases hlinked with rfl | hpos
    · exact absurd h.top.1 hs
    · obtain ⟨d₁, e₁, he₁, rfl⟩ := exists_of_named hpos
      have hd₁ : (s d₁).type = dirType := by
        rcases hnew d₁ e₁ he₁ with he | he
        · exact h.type_of_mem he
        · exact he.1
      exact .entry (hold hd₁ (ht.linked_of_mem he₁)) he₁

end

theorem Tree.step (h : Tree root s) (hready : Ready s c) (hwithin : Within root s c) (hstep : step s c = some t) : Tree root t := by
  have ht := h.toConsistent.step hready hwithin hstep
  have hedit := edit_of_step hready hstep
  have hnames : ∀ d, (names t d).Nodup := fun d => (hedit d).distinct (h.distinct d)
  refine ⟨ht, hnames, fun d => h.reached_step ht ?_⟩
  intro d e he
  exact (hedit d).old_or_new h.toConsistent ht (hnames d) he

theorem fresh_tree : Tree root (fresh root) := by
  refine ⟨fresh_consistent, ?_, ?_⟩
  · intro d
    by_cases hd : d = root
    · rw [names, hd, fresh_root]
      change [dot, dotdot].Nodup
      decide
    · rw [names, fresh_of_ne hd]
      exact List.nodup_nil
  · intro d _ hdir
    by_cases hd : d = root
    · rw [hd]
      exact .root
    · rw [fresh_of_ne hd] at hdir
      have h0 : 0 = dirType := hdir
      exact absurd h0 (by decide)

/-! ### Paths -/

theorem Tree.exists_path (h : Tree root s) {i : I} (hi : Reached root s i) : ∃ path, walk s root path = some i := by
  induction hi with
  | root => exact ⟨[], rfl⟩
  | @entry d e _ he ih =>
    obtain ⟨path, hpath⟩ := ih
    refine ⟨path ++ [e.1], ?_⟩
    rw [walk_append, hpath, Option.bind_some, dirlookup, find_of_mem (h.distinct d) (List.mem_of_mem_drop he)]
    rfl

theorem Consistent.type_ne_zero (h : Consistent root s) {i : I} (hi : Linked root s i) : (s i).type ≠ 0 := by
  rcases hi with rfl | hpos
  · rw [h.top.1]
    decide
  · obtain ⟨d, e, he, rfl⟩ := exists_of_named hpos
    exact h.target d e he

theorem Consistent.parent_linked (h : Consistent root s) {d p : I} (hd : Linked root s d) (hp : parent s d = some p) :
    Linked root s p := by
  rcases hd with rfl | hpos
  · rw [h.top.2.1, Option.some.injEq] at hp
    exact .inl hp.symm
  · obtain ⟨d', e, he, rfl⟩ := exists_of_named hpos
    rw [h.up d' e he (h.type_of_parent hp), Option.some.injEq] at hp
    rw [← hp]
    exact h.linked_of_mem he

theorem Consistent.lookup_linked (h : Consistent root s) {d i : I} {name : Name} (hd : Linked root s d)
    (hlook : dirlookup (s d).dir name = some i) : Linked root s i := by
  obtain ⟨e, hfind, rfl⟩ := Option.map_eq_some_iff.mp hlook
  have he := List.mem_of_find?_eq_some hfind
  by_cases hdir : (s d).type = dirType
  · obtain ⟨p, es, hdots⟩ := h.dots d hdir
    have hparent : parent s d = some p := by
      rw [parent, hdots]
      rfl
    have hrest : rest s d = es := by
      rw [rest, hdots]
      rfl
    rw [hdots, List.mem_cons, List.mem_cons] at he
    rcases he with rfl | rfl | he
    · exact hd
    · exact h.parent_linked hd hparent
    · exact .inr (named_pos (hrest ▸ he : e ∈ rest s d))
  · rw [h.plain d hdir] at he
    cases he

theorem Consistent.walk_linked (h : Consistent root s) {d i : I} {path : List Name} (hd : Linked root s d)
    (hpath : walk s d path = some i) : Linked root s i := by
  induction path generalizing d with
  | nil =>
    cases hpath
    exact hd
  | cons name path ih =>
    obtain ⟨j, hlook, hrest⟩ := Option.bind_eq_some_iff.mp hpath
    exact ih (h.lookup_linked hd hlook) hrest

theorem Tree.reached_of_links (h : Tree root s) {i : I} (hpos : 0 < links root s i) : Reached root s i := by
  have hentry {d : I} {e : Name × I} (he : e ∈ rest s d) : Reached root s d :=
    h.reached d (h.linked_of_mem he) (h.type_of_mem he)
  rw [links] at hpos
  by_cases hnamed : 0 < named s i
  · obtain ⟨d, e, he, rfl⟩ := exists_of_named hnamed
    exact .entry (hentry he) he
  · obtain ⟨d, -, hterm⟩ := Finset.exists_ne_zero_of_sum_ne_zero (Nat.ne_of_gt (by omega : 0 < dotted root s i))
    obtain ⟨hp, hd⟩ := (ite_ne_right_iff.mp hterm).1
    apply h.reached i (h.parent_linked hd hp)
    rcases hd with rfl | hd
    · rw [h.top.2.1, Option.some.injEq] at hp
      rw [← hp]
      exact h.top.1
    · obtain ⟨d', e, he, rfl⟩ := exists_of_named hd
      rw [h.up d' e he (h.type_of_parent hp), Option.some.injEq] at hp
      rw [← hp]
      exact h.type_of_mem he

end Xv6.Links
