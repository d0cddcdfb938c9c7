import Xv6.Kernel.CallsSpec

namespace Xv6.Kernel

open Lib Vm Prog

variable {sys : Sys} {strict : Prop} {ok : Panic → Prop} {l : Local} {p : Proc} {pt pt' : PageTable}
variable {i : Fin nProc} {ip : Fin nInode} {sz : ℕ} {argv : List ℕ}

theorem wp_readFile {off n : ℕ} {Q : ℤ × List UInt8 → Local → Prop} (hfs : ∀ msg, ok (.fs msg))
    (hQ : ∀ x, Q x l) : wp (ledger sys strict) ok (readFile sys ip off n) l Q :=
  wp_fsCall hfs hQ

theorem wp_loadLoop {va offset fuel j : ℕ} {Q : Bool → Local → Prop} (hfs : ∀ msg, ok (.fs msg))
    (hload : ok (.kernel "loadseg: address should exist")) (h : l.table .new = some pt) (hQ : ∀ b, Q b l) :
    wp (ledger sys strict) ok (loadLoop sys ip va offset sz fuel j) l Q := by
  induction fuel generalizing j with
  | zero => exact hQ true
  | succ fuel ih =>
    rw [loadLoop]
    by_cases hj : j < sz
    · rw [if_pos hj, wp_bind]
      apply wp_walkaddr h
      intro o
      cases o with
      | none => exact hload
      | some pa =>
        simp only [wp_bind]
        apply wp_readFile hfs
        intro x
        apply wp_fill
        by_cases hr : x.1 = (min (sz - j) pgSize : ℕ)
        · rw [if_pos hr]
          exact ih
        · rw [if_neg hr]
          exact hQ false
    · rw [if_neg hj]
      exact hQ true

theorem Image.freeable (h : Image pt sz) : Freeable strict pt sz :=
  ⟨h.framed, fun _ => ⟨h.le, h.mapped, h.bare⟩⟩

theorem Freeable.of_leaf (h : Freeable strict pt sz) (hleaf : ∀ va < 2 ^ 39, pt'.leaf va = pt.leaf va) :
    Freeable strict pt' sz := by
  constructor
  · apply h.1.of_leaf
    intro va hva _
    exact hleaf va hva
  · intro hst
    obtain ⟨hle, hmapped, hbare⟩ := h.2 hst
    refine ⟨hle, fun va hva => ?_, fun va hge hlt => ?_⟩
    · have hround := pgRoundUp_le_trapframe hle
      rw [hleaf va (lt_of_lt_trapframe (hva.trans_le hround))]
      exact hmapped va hva
    · rw [hleaf va (lt_of_lt_trapframe hlt)]
      exact hbare va hge hlt

theorem wp_loadProgram {n off : ℕ} {Q : Bool × ℕ → Local → Prop} (lax : ¬ strict → ∀ e, ok e)
    (hfs : ∀ msg, ok (.fs msg)) (hremap : ok (.kernel "mappages: remap"))
    (hload : ok (.kernel "loadseg: address should exist")) (h : l.table .new = some pt) (him : Image pt sz)
    (hdone : ∀ pt' sz', Image pt' sz' → Q (true, sz') (l.setTable .new (some pt')))
    (hfail : ∀ pt' sz', Freeable strict pt' sz' → Q (false, sz') (l.setTable .new (some pt'))) :
    wp (ledger sys strict) ok (loadProgram sys ip n off sz) l Q := by
  induction n generalizing off sz l pt with
  | zero =>
    have := hdone pt sz him
    rwa [setTable_self h] at this
  | succ n ih =>
    have hstop : Q (false, sz) l := by
      have := hfail pt sz him.freeable
      rwa [setTable_self h] at this
    rw [loadProgram, wp_bind]
    apply wp_readFile hfs
    rintro ⟨r, data⟩
    dsimp only
    by_cases hr : r = 56
    · rw [if_pos hr]
      generalize Proghdr.parse data = ph
      by_cases htype : ph.type ≠ 1
      · rw [if_pos htype]
        exact ih h him hdone hfail
      rw [if_neg htype]
      by_cases hmem : ph.memsz < ph.filesz
      · rw [if_pos hmem]
        exact hstop
      rw [if_neg hmem]
      by_cases hwrap : (ph.vaddr + ph.memsz) % 2 ^ 64 < ph.vaddr
      · rw [if_pos hwrap]
        exact hstop
      rw [if_neg hwrap, wp_bind]
      have hnext (sz₁ : ℕ) (pt₁ : PageTable) (him₁ : Image pt₁ sz₁) (h0 : sz₁ = 0 → sz = 0) :
          wp (ledger sys strict) ok
            (if sz₁ = 0 then pure (false, sz)
              else if ph.vaddr % pgSize ≠ 0 then pure (false, sz₁)
              else do
                let loaded ← loadseg sys ip ph.vaddr ph.off
                  ph.filesz
                if loaded then loadProgram sys ip n (off + 56) sz₁ else pure (false, sz₁))
            (l.setTable .new (some pt₁)) Q := by
        have hfail₁ : Q (false, sz₁) (l.setTable .new (some pt₁)) := hfail pt₁ sz₁ him₁.freeable
        by_cases hz : sz₁ = 0
        · rw [if_pos hz, h0 hz, ← hz]
          exact hfail₁
        rw [if_neg hz]
        by_cases halign : ph.vaddr % pgSize ≠ 0
        · rw [if_pos halign]
          exact hfail₁
        rw [if_neg halign, wp_bind]
        apply wp_loadLoop hfs hload (table_setTable h)
        intro loaded
        cases loaded with
        | false => exact hfail₁
        | true =>
          apply ih (table_setTable h) him₁
          · intro pt' sz' him'
            rw [setTable_setTable]
            exact hdone pt' sz' him'
          · intro pt' sz' hfree
            rw [setTable_setTable]
            exact hfail pt' sz' hfree
      apply wp_uvmalloc lax h him.framed.trapframe him.le (Or.inl hremap)
      · intro _
        have := hnext sz pt him id
        rwa [setTable_self h] at this
      · intro pt₁ hle htf hx
        apply hnext _ pt₁ (him.extend hx hle htf)
        omega
      · intro pt₁ hleaf
        rw [if_pos rfl]
        exact hfail pt₁ sz (him.freeable.of_leaf hleaf)
    · rw [if_neg hr]
      exact hstop

theorem wp_pushArgs {stackbase sp : ℕ} {ustack : List ℕ} {Q : Option (ℕ × List ℕ) → Local → Prop}
    (h : l.table .new = some pt) (hQ : ∀ o, Q o l) :
    wp (ledger sys strict) ok (pushArgs stackbase argv sp ustack) l Q := by
  induction argv generalizing sp ustack with
  | nil => exact hQ _
  | cons arg argv ih =>
    rw [pushArgs]
    by_cases hmany : ustack.length ≥ maxArg
    · rw [if_pos hmany]
      exact hQ none
    rw [if_neg hmany, wp_bind]
    apply wp_read
    intro s rest _
    dsimp only
    by_cases hbase : sp - (strlen (s.mem arg) + 1) - (sp - (strlen (s.mem arg) + 1)) % 16 < stackbase
    · rw [if_pos hbase]
      exact hQ none
    rw [if_neg hbase, wp_bind]
    apply wp_copyout h
    intro copied
    cases copied with
    | false => exact hQ none
    | true => exact ih

theorem wp_setTrapframe {off v : ℕ} {Q : Unit → Local → Prop} (hQ : Q () l) :
    wp (ledger sys strict) ok (setTrapframe off v) l Q := by
  apply wp_modify
  intro s rest hs
  split
  · exact ⟨hs.withPages _ s.fs rfl, hQ⟩
  · exact ⟨hs, hQ⟩

theorem tokens_swapTable (n : ℕ) : (l.swapTable n).tokens = l.tokens := by
  simp only [Local.tokens, Local.swapTable, Proc.tokens]
  abel

theorem Image.small (h : Image pt sz) (hpool : pt.pages ≤ sys.pool.val) : sz < 2 ^ 32 := by
  have hcard := (h.card.trans (Multiset.card_le_card hpool))
  have hle := h.le
  rw [pgRoundUp_eq (hle.trans (by decide))] at hcard
  simp only [Sys.pool, Finset.card_val, Nat.card_Ico, pgSize, physTop] at hcard
  omega

theorem Image.live (h : Image pt sz) (hsmall : sz < 2 ^ 32) (htable : p.pagetable = some pt) (hsz : p.sz = sz)
    (htf : p.trapframe ≠ none) (hvmas : ∀ k, p.vmas k = none) : p.Live strict pt := by
  have hvok : VmasOk p.vmas := by
    constructor
    · intro k v hk
      rw [hvmas k] at hk
      cases hk
    · intro k k' v v' hk
      rw [hvmas k] at hk
      cases hk
  refine ⟨htable, htf, h.framed, hvok, fun _ => ?_⟩
  rw [hsz]
  constructor
  · exact hsmall
  · exact h.mapped
  · intro va hge hlt hne
    exact absurd (h.bare va hge hlt) hne
  · intro k v hk
    rw [hvmas k] at hk
    cases hk

theorem Image.round (h : Image pt sz) : Image pt (pgRoundUp sz) := by
  have htf := pgRoundUp_le_trapframe h.le
  have hround : pgRoundUp (pgRoundUp sz) = pgRoundUp sz :=
    pgRoundUp_self (pgRoundUp_mod sz) (htf.trans (by decide))
  constructor
  · exact h.framed
  · rw [hround]
    exact h.mapped
  · rw [hround]
    exact h.bare
  · rw [hround]
    exact h.card
  · exact htf

theorem Image.of_iff (h : Image pt sz) (hleaf : ∀ va < 2 ^ 39, pt'.leaf va = none ↔ pt.leaf va = none)
    (hpages : pt'.pages = pt.pages) : Image pt' sz := by
  have htf := pgRoundUp_le_trapframe h.le
  constructor
  · constructor
    · rw [Ne, hleaf _ (by decide)]
      exact h.framed.trapframe
    · rw [Ne, hleaf _ (by decide)]
      exact h.framed.trampoline
    · intro va hge hlt
      rw [hleaf va hlt]
      exact h.framed.high va hge hlt
  · intro va hva
    rw [Ne, hleaf va (lt_of_lt_trapframe (hva.trans_le htf))]
    exact h.mapped va hva
  · intro va hge hlt
    rw [hleaf va (lt_of_lt_trapframe hlt)]
    exact h.bare va hge hlt
  · rw [hpages]
    exact h.card
  · exact h.le

theorem wp_dropNew {Q : ℤ → Local → Prop} {r : ℤ} (lax : ¬ strict → ∀ e, ok e) (hnew : l.new = none)
    (hfree : Freeable strict pt sz) (hQ : Q r l) :
    wp (ledger sys strict) ok (do
      procFreepagetable sys .new sz
      return r : KM ℤ) (l.setTable .new (some pt)) Q := by
  rw [wp_bind]
  apply wp_procFreepagetable lax (show (l.setTable .new (some pt)).table .new = some pt from rfl) hfree.1
  · intro hst
    exact ⟨(hfree.2 hst).1, (hfree.2 hst).2.1⟩
  · intro hst
    exact (hfree.2 hst).2.2
  · rw [setTable_new_none hnew]
    exact hQ

theorem wp_commitImage {Q : ℤ → Local → Prop} {old : ℕ} {entry sp r : ℕ} (lax : ¬ strict → ∀ e, ok e)
    (hfs : ∀ msg, ok (.fs msg)) (hnew : l.new = none) (hlive : l.proc.Live strict pt) (hold : l.proc.sz = old)
    (him : Image pt' sz)
    (hdone : ∀ p', p'.Live strict pt' → p'.sz = sz → p'.trapframe = l.proc.trapframe → Q r { l with proc := p' }) :
    wp (ledger sys strict) ok (do
      setTrapframe 120 sp
      vmaUnmapAll sys
      modifyLocal (·.swapTable sz)
      setTrapframe 24 entry
      setTrapframe 48 sp
      procFreepagetable sys .new old
      return r : KM ℤ) (l.setTable .new (some pt')) Q := by
  simp only [wp_bind]
  apply wp_setTrapframe
  apply wp_vmaUnmapAll lax hfs (l := l.setTable .new (some pt')) hlive
  intro p₁ pt₁ hlive₁ hkept hvmas
  -- the pages of the new image are pages of the machine, so that it ends below 2³²
  apply wp_modify
  intro s rest hs
  have hpool : pt'.pages ≤ sys.pool.val := by
    have hmem := pages_le_tokens (l := { l.setTable .new (some pt') with proc := p₁ }) (t := .new) rfl
    exact hmem.trans ((Multiset.le_add_right _ rest.1).trans hs.le_pool)
  have hsmall := him.small hpool
  have hlive' : Proc.Live strict { p₁ with pagetable := some pt', sz := sz } pt' :=
    him.live hsmall rfl rfl hlive₁.trapframe hvmas
  have hl : Local.swapTable { l.setTable .new (some pt') with proc := p₁ } sz =
      Local.setTable { l with proc := { p₁ with pagetable := some pt', sz := sz } } .new (some pt₁) := by
    rw [← hlive₁.table]
    rfl
  constructor
  · rw [show (ledger sys strict).tok (Local.swapTable { l.setTable .new (some pt') with proc := p₁ } sz) =
      (ledger sys strict).tok { l.setTable .new (some pt') with proc := p₁ } from tokens_swapTable sz]
    exact hs
  · apply wp_setTrapframe
    apply wp_setTrapframe
    have hfree := hlive₁.freeable hvmas
    rw [hkept.sz, show (l.setTable .new (some pt')).proc.sz = old from hold] at hfree
    have hdrop : wp (ledger sys strict) ok (do
        procFreepagetable sys .new old
        return r : KM ℤ) (Local.setTable { l with proc := { p₁ with pagetable := some pt', sz := sz } } .new (some pt₁)) Q :=
      wp_dropNew lax hnew hfree (hdone _ hlive' rfl hkept.trapframe)
    rw [wp_bind, ← hl] at hdrop
    exact hdrop

theorem wp_pushStack {Q : ℤ → Local → Prop} {entry : ℕ} (lax : ¬ strict → ∀ e, ok e)
    (hfs : ∀ msg, ok (.fs msg)) (hnew : l.new = none) (hlive : l.proc.Live strict pt) (him : Image pt' sz) (hfail : Q (-1) l)
    (hdone : ∀ p' r, p'.Live strict pt' → p'.sz = sz → p'.trapframe = l.proc.trapframe → Q r { l with proc := p' }) :
    wp (ledger sys strict) ok (pushStack sys argv entry l.proc.sz sz) (l.setTable .new (some pt')) Q := by
  have hgiveup : wp (ledger sys strict) ok (do
      procFreepagetable sys .new sz
      return -1 : KM ℤ) (l.setTable .new (some pt')) Q := wp_dropNew lax hnew him.freeable hfail
  have htable : (l.setTable .new (some pt')).table .new = some pt' := rfl
  rw [pushStack, wp_bind]
  generalize sz - pgSize = stackbase
  apply wp_pushArgs htable
  intro o
  cases o with
  | none => exact hgiveup
  | some x =>
    obtain ⟨sp, ustack⟩ := x
    dsimp only
    unfold enterImage
    dsimp only
    generalize sp - (ustack.length + 1) * 8 - (sp - (ustack.length + 1) * 8) % 16 = sp'
    split
    · exact hgiveup
    · rw [wp_bind]
      apply wp_copyout htable
      intro copied
      cases copied with
      | false => exact hgiveup
      | true => exact wp_commitImage lax hfs hnew hlive rfl him (fun p' => hdone p' _)

theorem wp_runImage {Q : ℤ → Local → Prop} {entry : ℕ} (lax : ¬ strict → ∀ e, ok e) (hfs : ∀ msg, ok (.fs msg))
    (hremap : ok (.kernel "mappages: remap")) (hnew : l.new = none) (hlive : l.proc.Live strict pt)
    (him : Image pt' sz) (hfail : Q (-1) l)
    (hdone : ∀ p' pt'' r, p'.Live strict pt'' → Q r { l with proc := p' }) :
    wp (ledger sys strict) ok (runImage sys argv entry sz) (l.setTable .new (some pt')) Q := by
  rw [runImage_eq, wp_bind]
  apply wp_myproc
  have him₁ := him.round
  generalize pgRoundUp sz = sz₁ at him₁
  have htable : (l.setTable .new (some pt')).table .new = some pt' := rfl
  have hle := him₁.le
  have hnowrap : (sz₁ + 2 * pgSize) % 2 ^ 64 = sz₁ + 2 * pgSize := by
    simp only [trapframe, trampoline, maxVa, pgSize] at *
    omega
  rw [hnowrap, wp_bind]
  apply wp_uvmalloc lax htable him₁.framed.trapframe hle (Or.inl hremap)
  · intro hlt
    omega
  · intro pt₂ _ htf hx
    rw [setTable_setTable, if_neg (by simp only [pgSize]; omega), wp_bind]
    have him₂ : Image pt₂ (sz₁ + 2 * pgSize) := him₁.extend hx (by omega) htf
    have hleaf : pt₂.leaf sz₁ ≠ none := by
      apply him₂.mapped
      rw [pgRoundUp_eq (htf.trans (by decide))]
      simp only [pgSize]
      omega
    have hva : sz₁ < maxVa := hle.trans_lt (by decide)
    rw [Nat.add_sub_cancel]
    generalize sz₁ + 2 * pgSize = sz₂ at him₂ ⊢
    apply wp_uvmclear (show (l.setTable .new (some pt₂)).table .new = some pt₂ from rfl) hva hleaf
    · intro pt₃ hiff hpages
      rw [setTable_setTable]
      exact wp_pushStack (l := l) lax hfs hnew hlive (him₂.of_iff hiff hpages) hfail (fun p' r hp' _ _ => hdone p' _ r hp')
  · intro pt₂ hleaf
    rw [setTable_setTable, if_pos rfl]
    exact wp_dropNew lax hnew (him₁.freeable.of_leaf hleaf) hfail

theorem exec_spec {Q : ℤ → Local → Prop} {namei : Fs.FsM (Option (Fin nInode))} (lax : ¬ strict → ∀ e, ok e)
    (hfs : ∀ msg, ok (.fs msg)) (hremap : ok (.kernel "mappages: remap"))
    (hload : ok (.kernel "loadseg: address should exist")) (hnew : l.new = none) (hlive : l.proc.Live strict pt)
    (hfail : Q (-1) l) (hdone : ∀ p' pt'' r, p'.Live strict pt'' → Q r { l with proc := p' }) :
    wp (ledger sys strict) ok (exec sys namei argv) l Q := by
  rw [exec, wp_bind]
  apply wp_fsCall hfs
  intro found
  cases found with
  | none => exact hfail
  | some ip =>
    dsimp only
    rw [wp_bind]
    apply wp_fsCall hfs
    intro _
    rw [wp_bind]
    apply wp_readFile hfs
    rintro ⟨r, elf⟩
    have hput : wp (ledger sys strict) ok (do
        fsCall (Fs.iput sys.sb ip)
        return -1 : KM ℤ) l Q := by
      rw [wp_bind]
      apply wp_fsCall hfs
      intro _
      exact hfail
    dsimp only
    split
    · rw [wp_bind]
      apply wp_myproc
      rw [wp_bind]
      apply wp_procPagetable lax hnew
      · exact hput
      · intro pt₁ him
        rw [if_pos rfl, wp_bind]
        apply wp_loadProgram lax hfs hremap hload rfl him
        · intro pt₂ sz₂ him₂
          rw [setTable_setTable]
          simp only [↓reduceIte, wp_bind]
          apply wp_fsCall hfs
          intro _
          exact wp_runImage lax hfs hremap hnew hlive him₂ hfail hdone
        · intro pt₂ sz₂ hfree
          rw [setTable_setTable]
          simp only [Bool.false_eq_true, ↓reduceIte]
          rw [wp_bind]
          apply wp_procFreepagetable lax (show (l.setTable .new (some pt₂)).table .new = some pt₂ from rfl) hfree.1
          · intro hst
            exact ⟨(hfree.2 hst).1, (hfree.2 hst).2.1⟩
          · intro hst
            exact (hfree.2 hst).2.2
          · rw [setTable_new_none hnew]
            exact hput
    · exact hput

theorem wp_fetchaddr {addr : ℕ} {Q : Option ℕ → Local → Prop} (h : l.table .own = some pt) (hQ : ∀ o, Q o l) :
    wp (ledger sys strict) ok (fetchaddr addr) l Q := by
  rw [fetchaddr, wp_bind]
  apply wp_myproc
  by_cases haddr : addr ≥ l.proc.sz ∨ (addr + 8) % 2 ^ 64 > l.proc.sz
  · rw [if_pos haddr]
    exact hQ none
  · rw [if_neg haddr, wp_bind]
    apply wp_copyinLoop h
    intro o
    cases o with
    | none => exact hQ none
    | some data => exact hQ _

theorem wp_fetchArgs {uargv fuel j : ℕ} {Q : Bool × List ℕ → Local → Prop} (hlive : p.Live strict pt)
    (hpool : ∀ page ∈ argv, sys.InPool page)
    (hQ : ∀ b argv', (∀ page ∈ argv', sys.InPool page) → Q (b, argv') { Local.holding i p with pages := ↑argv' }) :
    wp (ledger sys strict) ok (fetchArgs uargv fuel j argv) { Local.holding i p with pages := ↑argv } Q := by
  induction fuel generalizing j argv with
  | zero => exact hQ false argv hpool
  | succ fuel ih =>
    have htable : Local.table { Local.holding i p with pages := ↑argv } .own = some pt := hlive.table
    rw [fetchArgs, wp_bind]
    apply wp_fetchaddr htable
    intro o
    cases o with
    | none => exact hQ false argv hpool
    | some uarg =>
      dsimp only
      by_cases h0 : uarg = 0
      · rw [if_pos h0]
        exact hQ true argv hpool
      rw [if_neg h0, wp_bind]
      apply wp_kalloc
      · exact hQ false argv hpool
      intro page hpage
      have hpool' : ∀ page' ∈ argv ++ [page], sys.InPool page' := by
        intro page' hin
        rcases List.mem_append.mp hin with hin | hin
        · exact hpool page' hin
        · rw [List.mem_singleton.mp hin]
          exact hpage
      have hl : Local.takePage { Local.holding i p with pages := ↑argv } page =
          { Local.holding i p with pages := ↑(argv ++ [page]) } := by
        simp only [Local.takePage, Multiset.cons_coe, Local.mk.injEq, true_and, and_true]
        exact Multiset.coe_eq_coe.mpr (List.perm_append_singleton page argv).symm
      rw [hl]
      dsimp only
      rw [wp_bind]
      apply wp_copyinstrLoop (show Local.table { Local.holding i p with pages := ↑(argv ++ [page]) } .own = some pt
        from hlive.table)
      intro o
      cases o with
      | none => exact hQ false _ hpool'
      | some str =>
        dsimp only
        rw [wp_bind]
        apply wp_fill
        exact ih hpool'

theorem wp_freeArgs {Q : Unit → Local → Prop} (hpool : ∀ page ∈ argv, sys.InPool page)
    (hQ : Q () (.holding i p)) :
    wp (ledger sys strict) ok (freeArgs sys argv) { Local.holding i p with pages := ↑argv } Q := by
  induction argv with
  | nil => exact hQ
  | cons page argv ih =>
    simp only [freeArgs, List.forM, wp_bind]
    have hl : Local.dropPage { Local.holding i p with pages := ↑(page :: argv) } page =
        { Local.holding i p with pages := ↑argv } := by
      simp only [Local.dropPage, ← Multiset.cons_coe, Multiset.erase_cons_head]
    apply wp_kfree (hpool page List.mem_cons_self)
    · rw [hl]
      exact (tokens_takePage (l := { Local.holding i p with pages := ↑argv })).symm
    · rw [hl]
      exact ih (fun page' hin => hpool page' (List.mem_cons_of_mem page hin))

theorem sysExec_spec {namei : Fs.FsM (Option (Fin nInode))} {uargv : UInt64} (lax : ¬ strict → ∀ e, ok e) (hfs : ∀ msg, ok (.fs msg))
    (hremap : ok (.kernel "mappages: remap")) (hload : ok (.kernel "loadseg: address should exist"))
    (h : p.Live strict pt) :
    wp (ledger sys strict) ok (sysExec sys namei uargv) (.holding i p) (fun _ => Rest strict i) := by
  rw [sysExec, wp_bind]
  apply wp_fetchArgs h
  · intro page hin
    exact absurd hin List.not_mem_nil
  intro fetched argv hpool
  cases fetched with
  | false =>
    simp only [Bool.false_eq_true, ↓reduceIte, wp_bind]
    exact wp_freeArgs hpool (Rest.live h)
  | true =>
    simp only [↓reduceIte, wp_bind]
    apply exec_spec lax hfs hremap hload (l := { Local.holding i p with pages := ↑argv }) rfl h
    · exact wp_freeArgs hpool (Rest.live h)
    · intro p' pt' r hlive
      exact wp_freeArgs hpool (Rest.live hlive)

end Xv6.Kernel
