import Xv6.Kernel.ProcSpec

namespace Xv6.Kernel

open Lib Vm Prog

variable {sys : Sys} {strict : Prop} {ok : Panic → Prop} {s : Shared} {l : Local}
variable {p p' q q' : Proc} {pt pt' : PageTable} {i np : Fin nProc} {fd : Fin nOfile} {k : Fin nVma}

structure SameMemory (q q' : Proc) : Prop where
  sz : q'.sz = q.sz
  table : q'.pagetable = q.pagetable
  trapframe : q'.trapframe = q.trapframe

theorem not_mem_of_finRange {n : ℕ} {x : Fin n} {done rest : List (Fin n)}
    (h : List.finRange n = done ++ x :: rest) : x ∉ done := by
  have hnodup := List.nodup_finRange n
  rw [h, List.nodup_append] at hnodup
  intro hx
  exact hnodup.2.2 x hx x List.mem_cons_self rfl

theorem tokens_childFd {f : Fin nFile} (h : q.ofile fd = none) :
    (l.withChild np (q.setFd fd (some f))).tokens = (l.withChild np q).tokens + ofFiles {.ref f} := by
  have hs := Proc.tokens_setFd (p := q) fd (some f)
  rw [h, Option.elim_none, add_zero, Option.elim_some] at hs
  simp only [Local.tokens, Local.withChild, heldAt, Option.elim_some, hs]
  abel

theorem tokens_childVma {v : Vma} (h : q.vmas k = none) :
    (l.withChild np (q.setVma k (some v))).tokens = (l.withChild np q).tokens + ofFiles {.map v.file} := by
  have hs := Proc.tokens_setVma (p := q) (k := k) (some v)
  rw [h, Option.elim_none, add_zero, Option.elim_some] at hs
  simp only [Local.tokens, Local.withChild, heldAt, Option.elim_some, hs]
  abel

theorem withChild_refs : l.proc.tokens.2.1 ≤ (l.withChild np q).tokens.2.1 := by
  have hsplit : (l.withChild np q).tokens = l.proc.tokens + (l.slot.elim 0 ofSlot + ofPages (tablePages l.new) +
      heldAt np (some q) + ofPages l.pages + ofFiles (l.fresh.map .fresh + l.refs.map .ref) + ofEnds l.ends) := by
    simp only [Local.tokens, Local.withChild, Option.elim_some]
    abel
  rw [hsplit]
  exact Multiset.le_add_right _ _

theorem ref_mem_proc {f : Fin nFile} (h : p.ofile fd = some f) : .ref f ∈ p.tokens.2.1 := by
  have hs := Proc.tokens_setFd (p := p) fd none
  rw [h, Option.elim_some, Option.elim_none, add_zero] at hs
  rw [← hs]
  exact Multiset.mem_add.mpr (Or.inr (Multiset.mem_singleton_self _))

theorem map_mem_proc {v : Vma} (h : p.vmas k = some v) : .map v.file ∈ p.tokens.2.1 := by
  have hs := Proc.tokens_setVma (p := p) (k := k) none
  rw [h, Option.elim_some, Option.elim_none, add_zero] at hs
  rw [← hs]
  exact Multiset.mem_add.mpr (Or.inr (Multiset.mem_singleton_self _))

theorem wp_dupFds {Q : Unit → Local → Prop} (hq : ∀ fd, q.ofile fd = none)
    (hQ : ∀ q', SameMemory q q' → q'.vmas = q.vmas → Q () (l.withChild np q')) :
    wp (ledger sys strict) ok dupFds (l.withChild np q) Q := by
  rw [dupFds]
  apply wp_mono (wp_forM (I := fun done l' => ∃ q', SameMemory q q' ∧ q'.vmas = q.vmas ∧
    (∀ fd ∉ done, q'.ofile fd = none) ∧ l' = l.withChild np q') _ _)
  · rintro _ l' ⟨q', hsame, hvmas, -, rfl⟩
    exact hQ q' hsame hvmas
  · exact ⟨q, ⟨rfl, rfl, rfl⟩, rfl, fun fd _ => hq fd, rfl⟩
  · rintro done fd rest hfds l' ⟨q', hsame, hvmas, hnone, rfl⟩
    have hfd : q'.ofile fd = none := hnone fd (not_mem_of_finRange hfds)
    rw [wp_bind]
    apply wp_myproc
    rw [show (l.withChild np q').proc = l.proc from rfl]
    cases hp : l.proc.ofile fd with
    | none =>
      refine ⟨q', hsame, hvmas, fun fd' hfd' => hnone fd' ?_, rfl⟩
      intro hin
      exact hfd' (List.mem_append_left _ hin)
    | some f =>
      apply wp_filedup (r := .ref f)
      · exact Multiset.mem_of_le withChild_refs (ref_mem_proc hp)
      · intro heq
        cases heq
      · exact Or.inl rfl
      · exact tokens_childFd hfd
      · refine ⟨q'.setFd fd (some f), ⟨hsame.sz, hsame.table, hsame.trapframe⟩, hvmas, fun fd' hfd' => ?_, rfl⟩
        have hne : fd' ≠ fd := by
          rintro rfl
          exact hfd' (List.mem_append_right _ (List.mem_singleton_self fd'))
        rw [ofile_setFd_ne hne]
        apply hnone
        intro hin
        exact hfd' (List.mem_append_left _ hin)

theorem wp_dupVmas {Q : Unit → Local → Prop} (hq : ∀ k, q.vmas k = none)
    (hQ : ∀ q', SameMemory q q' → q'.vmas = l.proc.vmas → Q () (l.withChild np q')) :
    wp (ledger sys strict) ok dupVmas (l.withChild np q) Q := by
  rw [dupVmas]
  apply wp_mono (wp_forM (I := fun done l' => ∃ q', SameMemory q q' ∧ (∀ k ∈ done, q'.vmas k = l.proc.vmas k) ∧
    (∀ k ∉ done, q'.vmas k = none) ∧ l' = l.withChild np q') _ _)
  · rintro _ l' ⟨q', hsame, hdone, -, rfl⟩
    apply hQ q' hsame
    funext k
    exact hdone k (List.mem_finRange k)
  · exact ⟨q, ⟨rfl, rfl, rfl⟩, fun k hk => absurd hk List.not_mem_nil, fun k _ => hq k, rfl⟩
  · rintro done k rest hks l' ⟨q', hsame, hdone, hnone, rfl⟩
    have hk : q'.vmas k = none := hnone k (not_mem_of_finRange hks)
    rw [wp_bind]
    apply wp_myproc
    rw [show (l.withChild np q').proc = l.proc from rfl]
    cases hp : l.proc.vmas k with
    | none =>
      refine ⟨q', hsame, fun j hj => ?_, fun j hj => hnone j ?_, rfl⟩
      · rcases List.mem_append.mp hj with hj | hj
        · exact hdone j hj
        · rw [List.mem_singleton.mp hj, hk, hp]
      · intro hin
        exact hj (List.mem_append_left _ hin)
    | some v =>
      apply wp_filedup (r := .map v.file)
      · exact Multiset.mem_of_le withChild_refs (map_mem_proc hp)
      · intro heq
        cases heq
      · exact Or.inr ⟨rfl, rfl⟩
      · exact tokens_childVma hk
      · refine ⟨q'.setVma k (some v), ⟨hsame.sz, hsame.table, hsame.trapframe⟩, fun j hj => ?_, fun j hj => ?_, rfl⟩
        · by_cases hjk : j = k
          · rw [hjk, hp]
            exact Function.update_self _ _ _
          · rw [show (q'.setVma k (some v)).vmas j = q'.vmas j from Function.update_of_ne hjk _ _]
            rcases List.mem_append.mp hj with hj | hj
            · exact hdone j hj
            · exact absurd (List.mem_singleton.mp hj) hjk
        · have hne : j ≠ k := by
            rintro rfl
            exact hj (List.mem_append_right _ (List.mem_singleton_self j))
          rw [show (q'.setVma k (some v)).vmas j = q'.vmas j from Function.update_of_ne hne _ _]
          apply hnone
          intro hin
          exact hj (List.mem_append_left _ hin)

theorem wp_setParent {Q : Unit → Local → Prop} (hQ : Q () l) :
    wp (ledger sys strict) ok (setParent i np) l Q := by
  apply wp_modify
  intro s rest hs
  constructor
  · exact KInv.setSlot { s.procs np with parent := some i } hs rfl (hs.records np)
  · exact hQ

theorem wp_launch {Q : Unit → Local → Prop} (h : l.child = none) (hq : q.Live strict pt) (hQ : Q () l) :
    wp (ledger sys strict) ok (.modify launch) (l.withChild np q) Q := by
  apply wp_modify
  intro s rest hs
  have hl : { l.withChild np q with child := none } = l := by
    rw [← h]
    rfl
  change (ledger sys strict).inv (s.setSlot np _) ((ledger sys strict).tok { l.withChild np q with child := none } + rest) ∧
    Q () { l.withChild np q with child := none }
  rw [hl]
  constructor
  · have hm : l.tokens + heldAt np (some q) = (l.withChild np q).tokens + heldAt np (s.procs np).record := by
      rw [KInv.record_none hs mem_withChild, tokens_withChild h]
      exact (add_zero _).symm
    exact KInv.setSlot { s.procs np with state := .runnable, record := some q } hs hm ⟨pt, hq⟩
  · exact hQ

theorem holding_child : (Local.holding i p).child = none := rfl

theorem Proc.Live.child {ptq : PageTable} (h : p.Live strict pt) (hq : Image ptq 0)
    (hx : Extended ptq pt' 0 (0 + (p.sz + (pgSize - 1)) / pgSize * pgSize)) (hsz : q.sz = p.sz)
    (htable : q.pagetable = some pt') (htf : q.trapframe ≠ none) (hvmas : q.vmas = p.vmas) :
    q.Live strict pt' := by
  have hfr : Framed pt' := by
    apply hq.framed.of_leaf
    intro va hva hge
    apply hx.outside va hva
    have := hx.le
    omega
  have hvok : VmasOk q.vmas := by
    rw [hvmas]
    exact h.vmas
  refine ⟨htable, htf, hfr, hvok, fun hst => ?_⟩
  have hheap := h.heap hst
  have hround : 0 + (p.sz + (pgSize - 1)) / pgSize * pgSize = pgRoundUp p.sz := by
    rw [pgRoundUp_eq (small_le_maxVa hheap.small), zero_add]
    rfl
  rw [hround] at hx
  rw [hvmas, hsz]
  constructor
  · exact hheap.small
  · intro va hva
    exact hx.inside va (Nat.zero_le va) hva
  · intro va hge hlt hne
    rw [hx.outside va (lt_of_lt_trapframe hlt) (by omega)] at hne
    exact absurd (hq.bare va (by rw [pgRoundUp_zero]; omega) hlt) hne
  · exact hheap.above

theorem tokens_childFields (g : Proc → Proc) (hg : (g q).tokens = q.tokens) :
    ((l.withChild np q).mapChild g).tokens = (l.withChild np q).tokens := by
  simp only [Local.tokens, Local.withChild, Local.mapChild, Option.map_some, Option.elim_some, heldAt, hg]

theorem wp_copyTrapframe {src dst : ℕ} {Q : Unit → Local → Prop} (hQ : Q () l) :
    wp (ledger sys strict) ok (copyTrapframe src dst) l Q := wp_fill hQ

theorem fork_spec (lax : ¬ strict → ∀ e, ok e) (hfs : ∀ msg, ok (.fs msg)) (h : p.Live strict pt) :
    wp (ledger sys strict) ok (fork sys i) (.holding i p) (fun _ => Rest strict i) := by
  rw [fork, wp_bind]
  apply wp_allocproc lax holding_child rfl
  · exact Rest.live h
  intro np q ptq hq
  simp only [wp_bind]
  apply wp_myproc
  rw [show ((Local.holding i p).withChild np q).proc = p from rfl]
  apply wp_copyLoop lax (show ((Local.holding i p).withChild np q).table .own = some pt from h.table)
    (show ((Local.holding i p).withChild np q).table .child = some ptq from hq.table)
    (Extended.refl (Nat.zero_le _)) rfl hq.image.framed.trapframe
  · intro hst va hva
    apply (h.heap hst).mapped
    rw [pgRoundUp_eq (small_le_maxVa (h.heap hst).small)]
    simp only [pgSize] at hva
    omega
  · intro hst va hva
    apply hq.image.bare va
    · rw [pgRoundUp_zero]
      exact Nat.zero_le va
    · have hsmall := (h.heap hst).small
      simp only [pgSize, trapframe, trampoline, maxVa] at hva ⊢
      omega
  · intro pt' hx
    simp only [↓reduceIte, wp_bind]
    rw [show ((Local.holding i p).withChild np q).setTable .child (some pt') =
      (Local.holding i p).withChild np { q with pagetable := some pt' } from rfl]
    apply wp_modifyLocal
    · exact tokens_childFields (fun c => { c with sz := p.sz }) rfl
    rw [show ((Local.holding i p).withChild np { q with pagetable := some pt' }).mapChild
      (fun c => { c with sz := p.sz }) =
        (Local.holding i p).withChild np { q with pagetable := some pt', sz := p.sz } from rfl]
    apply wp_child
    intro _
    apply wp_mono (Q := fun _ l' => l' = (Local.holding i p).withChild np { q with pagetable := some pt', sz := p.sz })
    · split
      · split
        · exact wp_copyTrapframe rfl
        · rfl
      · rfl
    rintro _ _ rfl
    apply wp_dupFds (q := { q with pagetable := some pt', sz := p.sz }) hq.ofile
    intro q₁ hsame₁ hvmas₁
    apply wp_dupVmas
    · rw [hvmas₁]
      exact hq.vmas
    intro q₂ hsame₂ hvmas₂
    apply wp_mono (Q := fun _ l' => ∃ q₃, SameMemory q₂ q₃ ∧ q₃.vmas = q₂.vmas ∧ l' = (Local.holding i p).withChild np q₃)
    · cases p.cwd with
      | none => exact ⟨q₂, ⟨rfl, rfl, rfl⟩, rfl, rfl⟩
      | some ip =>
        simp only [wp_bind]
        apply wp_fsCall hfs
        intro _
        apply wp_modifyLocal
        · exact tokens_childFields (fun c => { c with cwd := some ip }) rfl
        · exact ⟨{ q₂ with cwd := some ip }, ⟨rfl, rfl, rfl⟩, rfl, rfl⟩
    rintro _ _ ⟨q₃, hsame₃, hvmas₃, rfl⟩
    have hlive : q₃.Live strict pt' := by
      apply h.child hq.image hx
      · rw [hsame₃.sz, hsame₂.sz, hsame₁.sz]
      · rw [hsame₃.table, hsame₂.table, hsame₁.table]
      · rw [hsame₃.trapframe, hsame₂.trapframe, hsame₁.trapframe]
        exact hq.trapframe
      · rw [hvmas₃, hvmas₂]
        rfl
    apply wp_read
    intro s rest _
    apply wp_setParent
    apply wp_launch holding_child hlive
    exact Rest.live h
  · intro pt' hleaf
    simp only [Bool.false_eq_true, ↓reduceIte, wp_bind, wp_pure]
    rw [show ((Local.holding i p).withChild np q).setTable .child (some pt') =
      (Local.holding i p).withChild np { q with pagetable := some pt' } from rfl]
    apply wp_freeproc (q := { q with pagetable := some pt' }) lax holding_child hq.ofile hq.vmas
    · intro pt'' hpt
      cases hpt
      constructor
      · apply hq.image.framed.of_leaf
        intro va hva _
        exact hleaf va hva
      · intro _
        dsimp only
        rw [hq.sz, pgRoundUp_zero]
        refine ⟨Nat.zero_le _, fun va hva => absurd hva (Nat.not_lt_zero va), fun va _ hlt => ?_⟩
        rw [hleaf va (lt_of_lt_trapframe hlt)]
        exact hq.image.bare va (by rw [pgRoundUp_zero]; exact Nat.zero_le va) hlt
    · exact Rest.live h

theorem forkret_spec :
    wp (ledger sys strict) ok (forkret i) .idle (fun _ => Rest strict i) := by
  apply wp_modify
  intro s rest hs
  have hrec := hs.records i
  rw [Slot.Ok] at hrec
  split
  · rename_i p hstate hrecord
    rw [hstate, hrecord] at hrec
    obtain ⟨pt, hp⟩ := hrec
    constructor
    · have hm : (Local.holding i p).tokens + heldAt i none = Local.idle.tokens + heldAt i (s.procs i).record := by
        rw [hrecord]
        simp only [Local.tokens, Local.holding, Local.idle, heldAt, Option.elim_some, Option.elim_none]
        rw [show Proc.empty.tokens = 0 from Proc.Bare.tokens ⟨rfl, rfl, rfl, fun _ => rfl, fun _ => rfl⟩]
        abel
      have hok : Slot.Ok strict { s.procs i with record := none } := by
        rw [Slot.Ok, hstate]
        trivial
      exact KInv.setSlot { s.procs i with record := none } hs hm hok
    · exact Rest.live hp
  · exact ⟨hs, Or.inl rfl⟩

theorem wp_closeFds {Q : Unit → Local → Prop} (hfs : ∀ msg, ok (.fs msg)) (h : p.Live strict pt)
    (hvmas : ∀ k, p.vmas k = none)
    (hQ : ∀ p', p'.Live strict pt → (∀ fd, p'.ofile fd = none) → (∀ k, p'.vmas k = none) →
      Q () (.holding i p')) : wp (ledger sys strict) ok (closeFds sys) (.holding i p) Q := by
  rw [closeFds]
  apply wp_mono (wp_forM (I := fun done l' => ∃ p' : Proc, p'.Live strict pt ∧ (∀ fd ∈ done, p'.ofile fd = none) ∧
    (∀ k, p'.vmas k = none) ∧ l' = .holding i p') _ _)
  · rintro _ l' ⟨p', hlive, hnone, hv, rfl⟩
    exact hQ p' hlive (fun fd => hnone fd (List.mem_finRange fd)) hv
  · exact ⟨p, h, fun fd hfd => absurd hfd List.not_mem_nil, hvmas, rfl⟩
  · rintro done fd rest - l' ⟨p', hlive, hnone, hv, rfl⟩
    rw [wp_bind]
    apply wp_myproc
    rw [show (Local.holding i p').proc = p' from rfl]
    cases hfd : p'.ofile fd with
    | none =>
      refine ⟨p', hlive, fun fd' hfd' => ?_, hv, rfl⟩
      rcases List.mem_append.mp hfd' with hin | hin
      · exact hnone fd' hin
      · rw [List.mem_singleton.mp hin, hfd]
    | some f =>
      apply wp_closeFd hfs hfd
      refine ⟨p'.setFd fd none, hlive.of_fds rfl rfl rfl rfl, fun fd' hfd' => ?_, hv, rfl⟩
      by_cases heq : fd' = fd
      · rw [heq, ofile_setFd_self]
      · rw [ofile_setFd_ne heq]
        rcases List.mem_append.mp hfd' with hin | hin
        · exact hnone fd' hin
        · exact absurd (List.mem_singleton.mp hin) heq

theorem KInv.reparent {m : Tokens} (hs : KInv sys strict s m) (heir : Fin nProc) :
    KInv sys strict { s with procs := fun j => if (s.procs j).parent = some i then
      { s.procs j with parent := some heir } else s.procs j } m := by
  have hrecord (j : Fin nProc) : (if (s.procs j).parent = some i then
      { s.procs j with parent := some heir } else s.procs j).record = (s.procs j).record := by
    split <;> rfl
  have hparked : Shared.parked { s with procs := fun j => if (s.procs j).parent = some i then
      { s.procs j with parent := some heir } else s.procs j } = s.parked := by
    simp only [Shared.parked, hrecord]
  constructor
  · rw [hparked]
    exact hs.balanced.congr rfl rfl rfl
  · intro j
    have hj := hs.records j
    dsimp only
    split
    · exact hj
    · exact hj

theorem wp_becomeZombie {status : ℤ} {Q : Unit → Local → Prop} (h : p.Live strict pt)
    (hofile : ∀ fd, p.ofile fd = none) (hvmas : ∀ k, p.vmas k = none) (hQ : Q () .idle) :
    wp (ledger sys strict) ok (.modify (becomeZombie sys i status)) (.holding i p) Q := by
  apply wp_modify
  intro s rest hs
  constructor
  · have hs' := KInv.reparent (i := i) hs sys.initproc
    have hslot : i ∈ (Local.holding i p).tokens.2.2.2 := by
      have hsplit : (Local.holding i p).tokens = p.tokens + ofSlot i := by
        simp only [Local.tokens, Local.holding, Option.elim_some, Option.elim_none, tablePages]
        abel
      rw [hsplit]
      exact Multiset.mem_add.mpr (Or.inr (Multiset.mem_singleton_self i))
    have hm : Local.idle.tokens + heldAt i (some p) = (Local.holding i p).tokens + heldAt i none := by
      simp only [Local.tokens, Local.holding, Local.idle, heldAt, Option.elim_some, Option.elim_none]
      rw [show Proc.empty.tokens = 0 from Proc.Bare.tokens ⟨rfl, rfl, rfl, fun _ => rfl, fun _ => rfl⟩]
      abel
    have hnone := KInv.record_none hs' hslot
    rw [← hnone] at hm
    exact KInv.setSlot _ hs' hm ⟨⟨pt, h⟩, hofile, hvmas⟩
  · exact hQ

theorem exit_spec {status : ℤ} (lax : ¬ strict → ∀ e, ok e) (hfs : ∀ msg, ok (.fs msg))
    (hinit : i = sys.initproc → ok (.kernel "init exiting")) (h : p.Live strict pt) :
    wp (ledger sys strict) ok (exit sys i status) (.holding i p) (fun _ => Rest strict i) := by
  rw [exit]
  by_cases hi : i = sys.initproc
  · rw [if_pos hi]
    exact hinit hi
  rw [if_neg hi, wp_bind]
  apply wp_vmaUnmapAll lax hfs (l := .holding i p) h
  intro p₁ pt₁ hlive₁ _ hvmas₁
  rw [wp_bind]
  apply wp_closeFds hfs hlive₁ hvmas₁
  intro p₂ hlive₂ hofile₂ hvmas₂
  rw [wp_bind]
  apply wp_myproc
  rw [show (Local.holding i p₂).proc = p₂ from rfl]
  cases p₂.cwd with
  | none => exact wp_becomeZombie hlive₂ hofile₂ hvmas₂ (Or.inl rfl)
  | some ip =>
    simp only [wp_bind]
    apply wp_fsCall hfs
    intro _
    apply wp_modifyLocal
    · simp only [Local.tokens, Local.mapProc, Proc.tokens]
    · exact wp_becomeZombie (hlive₂.of_fds rfl rfl rfl rfl) hofile₂ hvmas₂ (Or.inl rfl)

theorem wp_reap {Q : Unit → Local → Prop} (h : l.child = none) (hnone : Q () l)
    (hsome : ∀ q pt, q.Live strict pt → (∀ fd, q.ofile fd = none) → (∀ k, q.vmas k = none) →
      Q () (l.withChild np q)) : wp (ledger sys strict) ok (.modify (reap i np)) l Q := by
  apply wp_modify
  intro s rest hs
  by_cases hz : (s.procs np).state = .zombie ∧ (s.procs np).parent = some i
  · rw [reap, if_pos hz]
    have hrec := hs.records np
    rw [Slot.Ok, hz.1] at hrec
    have hok : Slot.Ok strict { s.procs np with record := none } := by
      rw [Slot.Ok, hz.1]
      trivial
    dsimp only
    cases hq : (s.procs np).record with
    | none =>
      have hl : { l with child := none } = l := by
        rw [← h]
      rw [Option.map_none, hl]
      constructor
      · apply KInv.setSlot { s.procs np with record := none } hs _ hok
        rw [hq]
      · exact hnone
    | some q =>
      rw [hq] at hrec
      obtain ⟨⟨pt, hlive⟩, hofile, hvmas⟩ := hrec
      constructor
      · have hm : (l.withChild np q).tokens + heldAt np none = l.tokens + heldAt np (s.procs np).record := by
          rw [tokens_withChild h, hq]
          exact add_zero _
        exact KInv.setSlot { s.procs np with record := none } hs hm hok
      · exact hsome q pt hlive hofile hvmas
  · rw [reap, if_neg hz]
    exact ⟨hs, hnone⟩

theorem Proc.Live.freeable (h : p.Live strict pt) (hvmas : ∀ k, p.vmas k = none) : Freeable strict pt p.sz := by
  constructor
  · exact h.framed
  · intro hst
    have hheap := h.heap hst
    refine ⟨small_le_trapframe hheap.small, hheap.mapped, fun va hge hlt => ?_⟩
    by_contra hne
    obtain ⟨k, v, hk, -⟩ := hheap.covered va hge hlt hne
    rw [hvmas k] at hk
    cases hk

theorem wp_collect {α : Type} {a : α} (lax : ¬ strict → ∀ e, ok e) (h : p.Live strict pt) :
    wp (ledger sys strict) ok (do
      .modify (reap i np)
      freeproc sys
      return a) (.holding i p) (fun _ => Rest strict i) := by
  rw [wp_bind]
  apply wp_reap holding_child
  · -- somebody else has freed the child already: there is nothing to free
    rw [wp_bind, freeproc, wp_bind]
    apply wp_child
    intro _
    exact Rest.live h
  · intro q ptq hlive hofile hvmas
    rw [wp_bind]
    apply wp_freeproc lax holding_child hofile hvmas
    · intro pt' hpt'
      rw [hlive.table] at hpt'
      cases hpt'
      exact hlive.freeable hvmas
    · exact Rest.live h

theorem waitScan_spec {addr : ℕ} {nps : List (Fin nProc)} {havekids : Bool} (lax : ¬ strict → ∀ e, ok e)
    (h : p.Live strict pt) :
    wp (ledger sys strict) ok (waitScan sys i addr havekids nps) (.holding i p) (fun _ => Rest strict i) := by
  induction nps generalizing havekids with
  | nil =>
    rw [waitScan, wp_bind]
    apply wp_read
    intro _ _ _
    exact Rest.live h
  | cons np nps ih =>
    rw [waitScan, wp_bind]
    apply wp_read
    intro s rest _
    by_cases hparent : (s.procs np).parent = some i
    · rw [if_pos hparent]
      by_cases hz : (s.procs np).state = .zombie
      · rw [if_pos hz]
        dsimp only
        by_cases haddr : addr ≠ 0
        · rw [if_pos haddr, wp_bind]
          apply wp_copyout (show (Local.holding i p).table .own = some pt from h.table)
          intro copied
          cases copied with
          | false => exact Rest.live h
          | true => exact wp_collect lax h
        · rw [if_neg haddr]
          exact wp_collect lax h
      · rw [if_neg hz]
        exact ih
    · rw [if_neg hparent]
      exact ih

end Xv6.Kernel
