import Xv6.Kernel.Traps

namespace Xv6.Kernel

open Lib Vm Prog

/-! ### The accesses of the user -/

inductive Use
  | load
  | store (b : UInt8)
  | fetch
  deriving DecidableEq

namespace Use

def cause : Use → ℕ
  | load => 13
  | store _ => 15
  | fetch => 12

def right (prot : ℕ) : Use → Bool
  | load => protRead prot
  | store _ => protWrite prot
  | fetch => protExec prot

def bit (u : Use) (pte : Pte) : Bool :=
  pte.u && match u with
    | load => pte.r
    | store _ => pte.w
    | fetch => pte.x

def finish (va : ℕ) : Use → KM Unit
  | load => return
  | store b => .modify (fun x => userStore x va b)
  | fetch => return

end Use

/-- An access of the user at `va`: with `none` the PTE allows it, and else `vma_fault` ends so. When a page has been
mapped the instruction is executed again. -/
def userAccess (sys : Sys) (u : Use) (va : ℕ) : KM (Option FaultEnd) := do
  let pte ← pteAt .own va
  if pte.any u.bit then
    u.finish va
    return none
  else
    let e ← vmaFaultEnd sys va u.cause
    if e = .populated then
      let pte ← pteAt .own va
      if pte.any u.bit then
        u.finish va
        return some e
      else
        let e ← vmaFaultEnd sys va u.cause
        return some e
    else return some e

def userAccesses (sys : Sys) : List (Use × ℕ) → KM (List (Option FaultEnd))
  | [] => return []
  | use :: uses => do
    let r ← userAccess sys use.1 use.2
    let rs ← userAccesses sys uses
    return r :: rs

def Decided (prot : ℕ) (use : Use × ℕ) (r : Option FaultEnd) : Prop :=
  if use.1.right prot then r = none ∨ r = some .populated ∨ ∃ e, r = some e ∧ e.starved = true else r = some .denied

structure Lazy (sys : Sys) (k : Fin nVma) (v : Vma) (x : KState) : Prop where
  sound : Sound sys x
  vmas : VmasOk x.2.proc.vmas
  slot : x.2.proc.vmas k = some v
  backed : Backed sys x v.file
  pages : ∀ a, v.Covers a → ∀ pte, leafOf x a = some pte → ∃ pa, pte = v.pte pa

section

variable {sys : Sys} {x y : KState} {k : Fin nVma} {v : Vma} {a cause : ℕ} {E : Panic → Prop}

theorem post_any {α : Type} {m : KM α} {Q : α → KState → Prop} (h : ∀ r y, Q r y) : m.post x Q (fun _ => True) := by
  induction m generalizing x with
  | ret r => exact h r x
  | fail e => trivial
  | act f m ih => exact ih x
  | choose p q ihp ihq => exact ⟨ihp, ihq⟩

theorem post_fsCall_any {α : Type} {m : Fs.FsM α} {Q : α → KState → Prop}
    (h : ∀ r fs, Q r ({ x.1 with fs := fs }, x.2)) : (fsCall m).post x Q (fun _ => True) := by
  apply post_fsCall
  unfold Hoare.wp
  cases m x.1.fs with
  | ok r => exact h r.1 r.2
  | error e => trivial

structure FaultEnds (x y : KState) (v : Vma) (a cause : ℕ) (e : FaultEnd) : Prop where
  denied : v.denies cause = true → e = .denied
  present : v.denies cause = false → (leafOf x a).isSome = true → e = .present
  absent : v.denies cause = false → leafOf x a = none → e = .populated ∨ e.starved = true
  populated : e = .populated → ∃ pa, leafOf y a = some (v.pte pa)

theorem Vma.covers_lt (hv : v.Ok) (hc : v.Covers a) : a < 2 ^ 39 ∧ pgRoundDown a < maxVa := by
  have hle := hv.le
  have hround : pgRoundDown a ≤ a := Nat.div_mul_le_self _ _
  unfold Vma.Covers at hc
  simp only [Vm.trapframe, trampoline, maxVa, pgSize] at *
  omega

theorem leafOf_round (ha : a < 2 ^ 39) (x : KState) : leafOf x (pgRoundDown a) = leafOf x a := by
  have hle : pgRoundDown a ≤ a := Nat.div_mul_le_self _ _
  exact leafOf_of_div a ha (hle.trans_lt ha) (pgRoundDown_div a)

theorem post_faultEnds (h : Lazy sys k v x) (hc : v.Covers a) :
    (vmaFaultEnd sys a cause).post x (fun e y => FaultEnds x y v a cause e) (fun _ => True) := by
  obtain ⟨pt, hpt⟩ := h.sound.table
  obtain ⟨ha, hround⟩ := Vma.covers_lt (h.vmas.each k v h.slot) hc
  have hleaf : leafOf x a = pt.leaf (pgRoundDown a) := by
    rw [← leafOf_round ha, leafOf_eq hpt]
  rw [vmaFaultEnd, post_bind, myproc, post_read, findVma_eq_of_covers h.vmas h.slot hc]
  dsimp only
  by_cases hden : v.denies cause = true
  · rw [if_pos hden, post_pure]
    exact ⟨fun _ => rfl, fun hf => absurd (hden.symm.trans hf) (by decide), fun hf => absurd (hden.symm.trans hf) (by decide),
      fun he => by cases he⟩
  have hallow : v.denies cause = false := Bool.eq_false_iff.mpr hden
  rw [if_neg hden, post_bind]
  apply post_walk hpt hround
  rw [post_bind]
  apply post_pteAt hpt
  cases hl : pt.leaf (pgRoundDown a) with
  | some pte =>
    obtain ⟨n, hn⟩ := PageTable.node0_of_leaf hl
    have hsome : leafOf x a = some pte := hleaf.trans hl
    rw [hn, if_pos (show ((some n).isSome && (some pte).isSome) = true from rfl), post_pure]
    refine ⟨fun hd => absurd hd hden, fun _ _ => rfl, fun _ hnone => ?_, fun he => by cases he⟩
    cases hsome.symm.trans hnone
  | none =>
    have hnone : leafOf x a = none := hleaf.trans hl
    have hends : ∀ e y, (e = .populated ∨ e.starved = true) → (e = .populated → ∃ pa, leafOf y a = some (v.pte pa)) →
        FaultEnds x y v a cause e := by
      intro e y he hp
      refine ⟨fun hd => absurd hd hden, fun _ hs => ?_, fun _ _ => he, hp⟩
      rw [hnone] at hs
      cases hs
    have hfail : ∀ e y, e.starved = true → e ≠ .populated → FaultEnds x y v a cause e :=
      fun e y he hp => hends e y (Or.inr he) (fun hpop => absurd hpop hp)
    rw [if_neg (by simp), post_bind]
    apply post_kalloc
    · exact hfail _ _ rfl (by decide)
    intro mem rest _
    rw [post_bind, fillPage, post_modify, post_bind, post_read, post_bind]
    apply post_fsCall_any
    intro _ fs
    rw [post_bind]
    apply post_fsCall_any
    rintro ⟨n, data⟩ fs'
    dsimp only
    rw [post_bind, storeBytes, post_modify]
    by_cases hn : n < 0
    · rw [if_pos hn, post_bind]
      apply post_any
      intro _ y
      exact hfail _ y rfl (by decide)
    rw [if_neg hn, post_bind]
    generalize hw : ((Shared.fill _ mem _, _) : KState) = w
    have hwt : w.2.proc.pagetable = some pt := by
      rw [← hw]
      exact hpt
    have hmod : pgRoundDown a % pgSize = 0 := Nat.mul_mod_left _ _
    apply post_mono (post_mappages hwt hmod hround hl) _ (fun _ he => he)
    rintro mapped y ⟨used, hy⟩
    cases mapped with
    | true =>
      rw [if_pos rfl] at hy ⊢
      refine hends _ y (Or.inl rfl) (fun _ => ⟨mem, ?_⟩)
      rw [hy.leaf a ha, if_pos (pgRoundDown_div a).symm]
    | false =>
      rw [if_neg Bool.false_ne_true, post_bind]
      apply post_any
      intro _ z
      exact hfail _ z rfl (by decide)

theorem Lazy.of_calm {S : ℕ → Prop} (h : Lazy sys k v x) (hfs : SameFiles sys.sb x.1.fs y.1.fs) (hcalm : Calm sys x y S)
    (hS : ∀ b, v.Covers b → S b → ∃ pa, leafOf y b = some (v.pte pa)) : Lazy sys k v y := by
  refine ⟨hcalm.sound, by rw [hcalm.vmas]; exact h.vmas, by rw [hcalm.vmas]; exact h.slot,
    (hfs.backed hcalm.ftable h.backed).1, ?_⟩
  intro b hb pte hpte
  by_cases hSb : S b
  · obtain ⟨pa, hpa⟩ := hS b hb hSb
    exact ⟨pa, Option.some.inj (hpte.symm.trans hpa)⟩
  · rw [hcalm.leaf b (Vma.covers_lt (h.vmas.each k v h.slot) hb).1 hSb] at hpte
    exact h.pages b hb pte hpte

theorem post_vmaFaultEnd (h : Lazy sys k v x) (hc : v.Covers a) :
    (vmaFaultEnd sys a cause).post x (fun e y => Lazy sys k v y ∧ FaultEnds x y v a cause e) E := by
  have hok := h.vmas.each k v h.slot
  have hfault := post_vmaFault (E := E) cause h.sound hok (findVma_eq_of_covers h.vmas h.slot hc) h.backed
  rw [vmaFault_eq, post_bind] at hfault
  apply post_mono (post_and hfault (post_faultEnds h hc)) _ (fun _ he => he.1)
  rintro e y ⟨⟨hfs, hcalm⟩, hends⟩
  refine ⟨?_, hends⟩
  by_cases he : e = .populated
  · rw [if_pos (by rw [he]; rfl)] at hcalm
    apply h.of_calm hfs hcalm.1
    intro b hb hpage
    obtain ⟨pa, hpa⟩ := hends.populated he
    exact ⟨pa, by rw [leafOf_of_div a (Vma.covers_lt hok hc).1 (Vma.covers_lt hok hb).1 hpage]; exact hpa⟩
  · rw [if_neg (by rw [FaultEnd.value, if_neg he]; decide)] at hcalm
    exact h.of_calm hfs hcalm (fun _ _ hf => hf.elim)

theorem Lazy.store {b : UInt8} (h : Lazy sys k v x) : Lazy sys k v (userStore x a b) := by
  have hleaf : ∀ va, leafOf (userStore x a b) va = leafOf x va := fun va => leafOf_userStore
  have hlocal : (userStore x a b).2 = x.2 := by
    unfold userStore
    split <;> rfl
  have hshared : (userStore x a b).1.freelist = x.1.freelist ∧ (userStore x a b).1.fs = x.1.fs ∧
      (userStore x a b).1.ftable = x.1.ftable := by
    unfold userStore
    split <;> exact ⟨rfl, rfl, rfl⟩
  obtain ⟨hlist, hfs, hftable⟩ := hshared
  have hs := h.sound
  refine ⟨⟨?_, ?_, ?_, ?_, ?_, ?_⟩, ?_, ?_, ⟨?_, ?_, ?_⟩, ?_⟩
  · rw [hlocal]; exact hs.table
  · rw [hlist]; exact hs.nodup
  · rw [hlist]; exact hs.pool
  · intro va hva pte hl
    rw [hleaf] at hl
    rw [hlist]
    exact hs.taken va hva pte hl
  · intro va hva pte hl
    rw [hleaf] at hl
    exact hs.user va hva pte hl
  · intro va hva va' hva' pte pte' hl hl'
    rw [hleaf] at hl hl'
    exact hs.apart va hva va' hva' pte pte' hl hl'
  · rw [hlocal]; exact h.vmas
  · rw [hlocal]; exact h.slot
  · rw [hfs]; exact h.backed.inv
  · rw [hfs, hftable]; exact h.backed.ref
  · rw [fileInum, hfs, hftable]; exact h.backed.type
  · intro va hva pte hl
    rw [hleaf] at hl
    exact h.pages va hva pte hl

theorem Lazy.finish {u : Use} {Q : Unit → KState → Prop} (h : Lazy sys k v x) (hQ : ∀ y, Lazy sys k v y → Q () y) :
    (u.finish a).post x Q E := by
  cases u with
  | load => exact hQ x h
  | store b => exact hQ _ h.store
  | fetch => exact hQ x h

theorem Vma.denies_cause (v : Vma) (u : Use) : v.denies u.cause = !u.right v.prot := by
  cases u <;> simp [Vma.denies, Use.cause, Use.right]

theorem Use.bit_of_right {u : Use} (pa : ℕ) (h : u.right v.prot = true) : u.bit (v.pte pa) = true := by
  cases u <;> simp_all [Use.bit, Use.right, Vma.pte]

theorem Use.right_of_bit {u : Use} {pa : ℕ} (hrw : protWrite v.prot = true → protRead v.prot = true)
    (h : u.bit (v.pte pa) = true) : u.right v.prot = true := by
  cases u with
  | load =>
    have hor : (protRead v.prot || protWrite v.prot) = true := h
    cases hw : protWrite v.prot with
    | true => exact hrw hw
    | false =>
      rw [hw, Bool.or_false] at hor
      exact hor
  | store b => exact h
  | fetch => exact h

theorem post_userAccess {u : Use} (hrw : protWrite v.prot = true → protRead v.prot = true) (h : Lazy sys k v x)
    (hc : v.Covers a) :
    (userAccess sys u a).post x (fun r y => Lazy sys k v y ∧ Decided v.prot (u, a) r) E := by
  obtain ⟨pt, hpt⟩ := h.sound.table
  rw [userAccess, post_bind]
  apply post_pteAt hpt
  rw [← leafOf_eq hpt]
  by_cases hbit : (leafOf x a).any u.bit = true
  · obtain ⟨pte, hpte, hb⟩ := (Option.any_eq_true _ _).mp hbit
    obtain ⟨pa, rfl⟩ := h.pages a hc pte hpte
    rw [if_pos hbit, post_bind]
    apply h.finish
    intro y hy
    refine ⟨hy, ?_⟩
    rw [Decided, if_pos (Use.right_of_bit hrw hb)]
    exact Or.inl rfl
  rw [if_neg hbit, post_bind]
  apply post_mono (post_vmaFaultEnd h hc) _ (fun _ he => he)
  rintro e y ⟨hy, hends⟩
  by_cases hright : u.right v.prot = true
  · have hallow : v.denies u.cause = false := by rw [Vma.denies_cause, hright]; rfl
    have hnone : leafOf x a = none := by
      cases hl : leafOf x a with
      | none => rfl
      | some pte =>
        obtain ⟨pa, rfl⟩ := h.pages a hc pte hl
        rw [hl, Option.any_some] at hbit
        exact absurd (Use.bit_of_right pa hright) hbit
    rcases hends.absent hallow hnone with he | he
    · subst he
      obtain ⟨pa, hpa⟩ := hends.populated rfl
      obtain ⟨pt', hpt'⟩ := hy.sound.table
      rw [if_pos rfl, post_bind]
      apply post_pteAt hpt'
      rw [← leafOf_eq hpt', hpa, Option.any_some, if_pos (Use.bit_of_right pa hright), post_bind]
      apply hy.finish
      intro z hz
      refine ⟨hz, ?_⟩
      rw [Decided, if_pos hright]
      exact Or.inr (Or.inl rfl)
    · rw [if_neg (by rintro rfl; cases he), post_pure]
      refine ⟨hy, ?_⟩
      rw [Decided, if_pos hright]
      exact Or.inr (Or.inr ⟨e, rfl, he⟩)
  · have hden : v.denies u.cause = true := by
      rw [Vma.denies_cause, Bool.eq_false_iff.mpr hright]
      rfl
    obtain rfl := hends.denied hden
    rw [if_neg (by decide), post_pure]
    refine ⟨hy, ?_⟩
    rw [Decided, if_neg hright]

theorem post_userAccesses {uses : List (Use × ℕ)} (hrw : protWrite v.prot = true → protRead v.prot = true)
    (h : Lazy sys k v x) (hc : ∀ use ∈ uses, v.Covers use.2) :
    (userAccesses sys uses).post x (fun rs y => Lazy sys k v y ∧ List.Forall₂ (Decided v.prot) uses rs) E := by
  induction uses generalizing x with
  | nil => exact ⟨h, .nil⟩
  | cons use uses ih =>
    rw [userAccesses, post_bind]
    apply post_mono (post_userAccess hrw h (hc use List.mem_cons_self)) _ (fun _ he => he)
    rintro r y ⟨hy, hr⟩
    rw [post_bind]
    apply post_mono (ih hy (fun use' hu => hc use' (List.mem_cons_of_mem _ hu))) _ (fun _ he => he)
    rintro rs z ⟨hz, hrs⟩
    exact ⟨hz, .cons hr hrs⟩

theorem Lazy.of_ready (h : Ready sys x) (hk : x.2.proc.vmas k = some v)
    (hpages : ∀ a, v.Covers a → ∀ pte, leafOf x a = some pte → ∃ pa, pte = v.pte pa) : Lazy sys k v x :=
  ⟨h.sound, h.vmas, hk, (h.file hk).backed, hpages⟩

end

variable {x : KState} {k : Fin nVma} {v : Vma}

/-- In a mapping with `PROT_READ` or without `PROT_WRITE` each access of a sequence is decided by `prot` and its kind. -/
theorem access_decided_by_prot (sys : Sys) (hx : Ready sys x) (hk : x.2.proc.vmas k = some v)
    (hpages : ∀ a, v.Covers a → ∀ pte, leafOf x a = some pte → ∃ pa, pte = v.pte pa)
    (hrw : protWrite v.prot = true → protRead v.prot = true) :
    (∀ (u : Use) pa, v.denies u.cause = !u.bit (v.pte pa)) ∧
    ∀ uses : List (Use × ℕ), (∀ use ∈ uses, v.Covers use.2) →
      (userAccesses sys uses).post x (fun rs _ => List.Forall₂ (Decided v.prot) uses rs) (fun _ => False) := by
  constructor
  · intro u pa
    rw [Vma.denies_cause, Bool.not_inj_iff, Bool.eq_iff_iff]
    exact ⟨Use.bit_of_right pa, Use.right_of_bit hrw⟩
  · intro uses hc
    apply post_mono (post_userAccesses hrw (.of_ready hx hk hpages) hc) _ (fun _ he => he)
    intro rs y h
    exact h.2

section Example

theorem untouchedPage_empty : Ready bootSys untouchedPage ∧ ∀ a, leafOf untouchedPage a = none := by
  obtain ⟨k, u, -, hm⟩ := mmaps_of_returns untouchedPage_returns (by decide)
  refine ⟨hm.ready linkedFile_ready, fun a => ?_⟩
  rw [hm.result]
  change leafOf linkedFile a = none
  rw [leafOf_eq (show linkedFile.2.proc.pagetable = some (.empty 524455) from rfl)]
  exact leaf_empty 524455

def writeOnlyPage : KState := after (sysMmap 0 4096 2 1 0 0) linkedFile

theorem writeOnlyPage_returns : (sysMmap 0 4096 2 1 0 0).returns linkedFile 274877894656 writeOnlyPage :=
  returns_after (by decide +kernel)

attribute [irreducible] writeOnlyPage

end Example

theorem readable_page_decided : (userAccesses bootSys [(.fetch, 274877894656), (.load, 274877894656)]).post untouchedPage
    (fun rs _ => List.Forall₂ (Decided 3) [(.fetch, 274877894656), (.load, 274877894656)] rs) (fun _ => False) := by
  have hvma : (untouchedPage.2.proc.vmas ⟨0, by decide⟩).any
      (fun v => v.addr = 274877894656 ∧ v.length = 4096 ∧ v.prot = 3) = true := by decide +kernel
  obtain ⟨v, hv, hprops⟩ := (Option.any_eq_true _ _).mp hvma
  rw [decide_eq_true_eq] at hprops
  obtain ⟨haddr, hlength, hprot⟩ := hprops
  have hread : protWrite v.prot = true → protRead v.prot = true := by
    rw [hprot]
    decide
  have hpages : ∀ a, v.Covers a → ∀ pte, leafOf untouchedPage a = some pte → ∃ pa, pte = v.pte pa := by
    intro a _ pte hl
    rw [untouchedPage_empty.2] at hl
    cases hl
  have hall := (access_decided_by_prot bootSys untouchedPage_empty.1 hv hpages hread).2
  rw [hprot] at hall
  apply hall
  have hc : v.Covers 274877894656 := by
    unfold Vma.Covers
    omega
  simp [hc]

theorem load_after_store : ∃ x y z, (sysMmap 0 4096 2 1 0 0).returns linkedFile 274877894656 x ∧
    (userAccesses bootSys [(.load, 274877894656)]).returns x [some .denied] y ∧
    (userAccesses bootSys [(.store 1, 274877894656), (.load, 274877894656)]).returns x [some .populated, none] z :=
  ⟨_, _, _, writeOnlyPage_returns, returns_afterProg (by decide +kernel), returns_afterProg (by decide +kernel)⟩

end Xv6.Kernel
