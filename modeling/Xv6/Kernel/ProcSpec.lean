import Xv6.Kernel.MmapSpec

namespace Xv6.Kernel

open Lib Vm Prog

variable {sys : Sys} {strict : Prop} {ok : Panic → Prop} {s : Shared} {m m' rest : Tokens} {l : Local}
variable {p q : Proc} {pt pt' : PageTable} {i np : Fin nProc}

theorem Proc.Bare.tokens (h : p.Bare) : p.tokens = 0 := by
  simp only [Proc.tokens, h.table, h.trapframe, h.ofile, h.vmas, tablePages, Option.elim_none,
    Finset.sum_const_zero, add_zero]
  rfl

theorem Balanced.congr {s' : Shared} {T : Tokens} (h : Balanced sys s T) (hfree : s'.freelist = s.freelist)
    (hfiles : s'.ftable = s.ftable) (hpipes : s'.pipes = s.pipes) : Balanced sys s' T := by
  cases s
  cases s'
  subst hfree hfiles hpipes
  obtain ⟨hP, hF, hE, hS⟩ := h
  exact ⟨hP, ⟨hF.count, hF.free, hF.fresh, hF.mapped⟩, ⟨hE.inPool, hE.isOpen, hE.count⟩, hS⟩

theorem KInv.congr {s' : Shared} (h : KInv sys strict s m) (hprocs : s'.procs = s.procs)
    (hfree : s'.freelist = s.freelist) (hfiles : s'.ftable = s.ftable) (hpipes : s'.pipes = s.pipes) :
    KInv sys strict s' m := by
  have hparked : s'.parked = s.parked := by simp only [Shared.parked, hprocs]
  constructor
  · rw [hparked]
    exact h.balanced.congr hfree hfiles hpipes
  · rw [hprocs]
    exact h.records

theorem parked_setSlot {slot : Slot} :
    (s.setSlot i slot).parked + heldAt i (s.procs i).record = s.parked + heldAt i slot.record := by
  have hsum := sum_update_add (fun j (sl : Slot) => heldAt j sl.record) s.procs i slot
  unfold Shared.parked
  exact hsum

theorem KInv.setSlot (slot : Slot) (hs : KInv sys strict s (m + rest))
    (hm : m' + heldAt i slot.record = m + heldAt i (s.procs i).record) (hok : slot.Ok strict) :
    KInv sys strict (s.setSlot i slot) (m' + rest) := by
  have htotal : m' + rest + (s.setSlot i slot).parked = m + rest + s.parked := by
    have hsum : m' + rest + (s.setSlot i slot).parked + (heldAt i (s.procs i).record + heldAt i slot.record) =
        m + rest + s.parked + (heldAt i (s.procs i).record + heldAt i slot.record) := by
      calc _ = (m' + heldAt i slot.record) + rest +
            ((s.setSlot i slot).parked + heldAt i (s.procs i).record) := by abel
        _ = _ := by
            rw [hm, parked_setSlot]
            abel
    exact add_right_cancel hsum
  constructor
  · rw [htotal]
    exact hs.balanced.congr rfl rfl rfl
  · intro j
    by_cases hj : j = i
    · subst hj
      rw [show (s.setSlot j slot).procs j = slot from Function.update_self _ _ _]
      exact hok
    · rw [show (s.setSlot i slot).procs j = s.procs j from Function.update_of_ne hj _ _]
      exact hs.records j

theorem KInv.record_none (hs : KInv sys strict s (m + rest)) (h : i ∈ m.2.2.2) :
    (s.procs i).record = none := by
  by_contra hne
  obtain ⟨q, hq⟩ := Option.ne_none_iff_exists'.mp hne
  have hslots : m.2.2.2 + rest.2.2.2 + s.parked.2.2.2 = Finset.univ.val := hs.balanced.slots
  have hsplit := Finset.add_sum_erase Finset.univ (fun j => heldAt j (s.procs j).record) (Finset.mem_univ i)
  have hin : i ∈ s.parked.2.2.2 := by
    rw [Shared.parked, ← hsplit, hq]
    apply Multiset.mem_add.mpr
    left
    exact Multiset.mem_add.mpr (Or.inr (Multiset.mem_singleton_self i))
  have hnodup : (m.2.2.2 + rest.2.2.2 + s.parked.2.2.2).Nodup := hslots ▸ Finset.univ.nodup
  have hcount := Multiset.nodup_iff_count_le_one.mp hnodup i
  have h1 := Multiset.count_pos.mpr h
  have h2 := Multiset.count_pos.mpr hin
  simp only [Multiset.count_add] at hcount
  omega

def Local.withChild (l : Local) (np : Fin nProc) (q : Proc) : Local := { l with child := some (np, q) }

theorem tokens_withChild (h : l.child = none) : (l.withChild np q).tokens = l.tokens + heldAt np (some q) := by
  simp only [Local.tokens, Local.withChild, h, Option.elim_none, Option.elim_some]
  abel

theorem mem_withChild : np ∈ (l.withChild np q).tokens.2.2.2 := by
  have hsplit : (l.withChild np q).tokens = ({ l with child := none } : Local).tokens + heldAt np (some q) := by
    rw [← tokens_withChild rfl]
    rfl
  rw [hsplit]
  apply Multiset.mem_add.mpr
  right
  exact Multiset.mem_add.mpr (Or.inr (Multiset.mem_singleton_self np))

theorem wp_claimSlot {Q : Bool → Local → Prop} (h : l.child = none) (hfail : Q false l)
    (hdone : ∀ q : Proc, q.Bare → Q true (l.withChild i q)) :
    wp (ledger sys strict) ok (claimSlot i) l Q := by
  intro s rest hs
  by_cases hfree : (s.procs i).state = .unused
  · simp only [hfree, decide_true, ↓reduceIte]
    have hrec := hs.records i
    rw [Slot.Ok, hfree] at hrec
    cases hq : (s.procs i).record with
    | none => rw [hq] at hrec; exact hrec.elim
    | some q =>
      rw [hq] at hrec
      have hbare : Proc.Bare { q with vmas := fun _ => none } :=
        ⟨hrec.sz, hrec.table, hrec.trapframe, hrec.ofile, fun _ => rfl⟩
      simp only [Option.getD_some]
      have hm : (l.withChild i { q with vmas := fun _ => none }).tokens + heldAt i none =
          l.tokens + heldAt i (s.procs i).record := by
        rw [tokens_withChild h, hq]
        simp only [heldAt, Option.elim_some, Option.elim_none, hbare.tokens, hrec.tokens, add_zero]
      constructor
      · exact (hs.setSlot ⟨.used, _, _, _, _, none⟩ hm trivial).congr rfl rfl rfl rfl
      · exact hdone _ hbare
  · simp only [hfree, decide_false, Bool.false_eq_true, ↓reduceIte]
    exact ⟨hs, hfail⟩

theorem wp_child {Q : Option (Fin nProc × Proc) → Local → Prop}
    (hQ : l.tokens.1 ≤ sys.pool.val → Q l.child l) : wp (ledger sys strict) ok child l Q := by
  apply wp_read
  intro s rest hs
  apply hQ
  exact le_trans (Multiset.le_add_right _ rest.1) hs.le_pool

theorem wp_resetSlot {Q : Unit → Local → Prop} (h : l.child = none)
    (hq : Proc.Bare { q with sz := 0 }) (hQ : Q () l) :
    wp (ledger sys strict) ok (.modify resetSlot) (l.withChild np q) Q := by
  apply wp_modify
  intro s rest hs
  have hl : { l.withChild np q with child := none } = l := by
    rw [← h]
    rfl
  change (ledger sys strict).inv (s.setSlot np _) ((ledger sys strict).tok { l.withChild np q with child := none } + rest) ∧
    Q () { l.withChild np q with child := none }
  rw [hl]
  constructor
  · have hm : l.tokens + heldAt np (some { q with sz := 0 }) =
        (l.withChild np q).tokens + heldAt np (s.procs np).record := by
      rw [KInv.record_none hs mem_withChild, tokens_withChild h]
      exact (add_zero _).symm
    exact KInv.setSlot ⟨.unused, 0, none, 0, false, some { q with sz := 0 }⟩ hs hm hq
  · exact hQ

theorem tokens_childTrapframe {tf : ℕ} (hq : q.trapframe = some tf) :
    (l.withChild np { q with trapframe := none }).tokens + ofPages {tf} = (l.withChild np q).tokens := by
  simp only [Local.tokens, Local.withChild, heldAt, Option.elim_some, Proc.tokens, hq, Option.elim_none]
  abel

def Freeable (strict : Prop) (pt : PageTable) (sz : ℕ) : Prop :=
  Framed pt ∧ (strict → sz ≤ trapframe ∧ (∀ va < pgRoundUp sz, pt.leaf va ≠ none) ∧
    ∀ va, pgRoundUp sz ≤ va → va < trapframe → pt.leaf va = none)

theorem wp_freeTable {Q : Unit → Local → Prop} (lax : ¬ strict → ∀ e, ok e) (h : l.child = none)
    (htf : q.trapframe = none) (hofile : ∀ fd, q.ofile fd = none) (hvmas : ∀ k, q.vmas k = none)
    (htable : ∀ pt, q.pagetable = some pt → Freeable strict pt q.sz) (hQ : Q () l) :
    wp (ledger sys strict) ok (if q.pagetable.isSome then procFreepagetable sys .child q.sz else pure ())
      (l.withChild np q) (fun _ l' => wp (ledger sys strict) ok (.modify resetSlot) l' Q) := by
  cases hpt : q.pagetable with
  | none =>
    simp only [Option.isSome_none, Bool.false_eq_true, ↓reduceIte, wp_pure]
    exact wp_resetSlot h ⟨rfl, hpt, htf, hofile, hvmas⟩ hQ
  | some pt =>
    obtain ⟨hf, hsz⟩ := htable pt hpt
    have hchild : (l.withChild np q).table .child = some pt := hpt
    simp only [Option.isSome_some, ↓reduceIte]
    apply wp_procFreepagetable lax hchild hf
    · intro hst
      exact ⟨(hsz hst).1, (hsz hst).2.1⟩
    · intro hst
      exact (hsz hst).2.2
    · change wp (ledger sys strict) ok (.modify resetSlot) (l.withChild np { q with pagetable := none }) Q
      exact wp_resetSlot h ⟨rfl, rfl, htf, hofile, hvmas⟩ hQ

theorem wp_freeproc {Q : Unit → Local → Prop} (lax : ¬ strict → ∀ e, ok e) (h : l.child = none)
    (hofile : ∀ fd, q.ofile fd = none) (hvmas : ∀ k, q.vmas k = none)
    (htable : ∀ pt, q.pagetable = some pt → Freeable strict pt q.sz) (hQ : Q () l) :
    wp (ledger sys strict) ok (freeproc sys) (l.withChild np q) Q := by
  rw [freeproc, wp_bind]
  apply wp_child
  intro hpool
  rw [show (l.withChild np q).child = some (np, q) from rfl]
  cases htf : q.trapframe with
  | none =>
    simp only [htf, wp_bind, wp_pure]
    exact wp_freeTable lax h htf hofile hvmas htable hQ
  | some tf =>
    simp only [htf, wp_bind]
    apply wp_kfree
    · apply inPool_of_mem
      apply Multiset.mem_of_le hpool
      rw [← tokens_childTrapframe htf]
      exact Multiset.mem_add.mpr (Or.inr (Multiset.mem_singleton_self tf))
    · exact tokens_childTrapframe htf
    · rw [show (l.withChild np q).mapChild (fun p => { p with trapframe := none }) =
        l.withChild np { q with trapframe := none } from rfl]
      exact wp_freeTable (q := { q with trapframe := none }) lax h rfl hofile hvmas htable hQ

theorem wp_findSlot {is : List (Fin nProc)} {Q : Option (Fin nProc) → Local → Prop} (h : l.child = none)
    (hnone : Q none l) (hsome : ∀ np q, q.Bare → Q (some np) (l.withChild np q)) :
    wp (ledger sys strict) ok (findSlot is) l Q := by
  induction is with
  | nil => exact hnone
  | cons i is ih =>
    rw [findSlot, wp_bind]
    apply wp_claimSlot h
    · exact ih
    · intro q hq
      exact hsome i q hq

structure Proc.Blank (q : Proc) (pt : PageTable) : Prop where
  sz : q.sz = 0
  table : q.pagetable = some pt
  trapframe : q.trapframe ≠ none
  ofile : ∀ fd, q.ofile fd = none
  vmas : ∀ k, q.vmas k = none
  image : Image pt 0

theorem wp_allocproc {Q : Option (Fin nProc) → Local → Prop} (lax : ¬ strict → ∀ e, ok e) (h : l.child = none)
    (hnew : l.new = none) (hnone : Q none l)
    (hsome : ∀ np q pt, q.Blank pt → Q (some np) (l.withChild np q)) :
    wp (ledger sys strict) ok (allocproc sys) l Q := by
  rw [allocproc, wp_bind]
  apply wp_findSlot h
  · exact hnone
  intro np q hq
  simp only [wp_bind]
  have hfree (q' : Proc) (hofile : q'.ofile = q.ofile) (hvmas : q'.vmas = q.vmas)
      (htable : q'.pagetable = none) :
      wp (ledger sys strict) ok (freeproc sys) (l.withChild np q') (fun _ l' => Q none l') := by
    apply wp_freeproc lax h
    · rw [hofile]
      exact hq.ofile
    · rw [hvmas]
      exact hq.vmas
    · intro pt hpt
      rw [htable] at hpt
      cases hpt
    · exact hnone
  apply wp_kalloc
  · simp only [wp_bind, wp_pure]
    exact hfree q rfl rfl hq.table
  · intro tf _
    have htok : ((l.withChild np { q with trapframe := some tf }) : Local).tokens =
        ((l.withChild np q).takePage tf).tokens := by
      rw [tokens_takePage, ← tokens_childTrapframe (q := { q with trapframe := some tf }) rfl,
        ← hq.trapframe]
    have hl : (((l.withChild np q).takePage tf).mapChild (fun p => { p with trapframe := some tf })).dropPage tf =
        l.withChild np { q with trapframe := some tf } := by
      simp only [Local.withChild, Local.takePage, Local.mapChild, Local.dropPage, Multiset.erase_cons_head,
        Option.map_some]
    simp only [wp_bind]
    apply wp_modifyLocal
    · simp only [hl]
      exact htok
    · simp only [hl]
      apply wp_procPagetable lax (l := l.withChild np { q with trapframe := some tf }) hnew
      · simp only [Bool.false_eq_true, ↓reduceIte, wp_bind, wp_pure]
        exact hfree _ rfl rfl hq.table
      · intro pt him
        simp only [↓reduceIte, wp_bind, wp_pure]
        have hl' : { ((l.withChild np { q with trapframe := some tf }).setTable .new (some pt)).setTable .child
              ((l.withChild np { q with trapframe := some tf }).setTable .new (some pt)).new with new := none } =
            l.withChild np { q with trapframe := some tf, pagetable := some pt } := by
          cases l
          cases hnew
          rfl
        apply wp_modifyLocal
        · simp only [hl']
          simp only [Local.tokens, Local.withChild, Local.setTable, heldAt, Proc.tokens, Option.elim_some, hq.table,
            tablePages, Option.elim_none, hnew]
          abel
        · simp only [hl']
          exact hsome np _ pt ⟨hq.sz, rfl, by simp, hq.ofile, hq.vmas, him⟩

theorem lt_of_lt_trapframe {va : ℕ} (h : va < trapframe) : va < 2 ^ 39 := by
  simp only [trapframe, trampoline, maxVa, pgSize] at h
  omega

theorem Proc.Live.grow {newsz lo : ℕ} (h : p.Live strict pt) (hsmall : newsz < 2 ^ 32)
    (hlo : strict → lo = pgRoundUp p.sz ∧ lo ≤ pgRoundUp newsz)
    (habove : strict → ∀ k v, p.vmas k = some v → pgRoundUp newsz ≤ v.addr)
    (hx : Extended pt pt' lo (pgRoundUp newsz)) :
    Proc.Live strict { p with pagetable := some pt', sz := newsz } pt' := by
  have htf := hx.le
  have hfr : Framed pt' := by
    apply h.framed.of_leaf
    intro va hva hge
    apply hx.outside va hva
    omega
  refine ⟨rfl, h.trapframe, hfr, h.vmas, fun hst => ?_⟩
  have hheap := h.heap hst
  obtain ⟨rfl, hle⟩ := hlo hst
  constructor
  · exact hsmall
  · intro va hva
    dsimp only at hva
    by_cases hin : pgRoundUp p.sz ≤ va
    · exact hx.inside va hin hva
    · rw [hx.outside va (lt_of_lt_trapframe (hva.trans_le htf)) (by omega)]
      exact hheap.mapped va (by omega)
  · intro va hge hlt hne
    dsimp only at hge
    rw [hx.outside va (lt_of_lt_trapframe hlt) (by omega)] at hne
    exact hheap.covered va (hle.trans hge) hlt hne
  · exact habove hst

theorem Proc.Live.shrink {newsz lo hi : ℕ} (h : p.Live strict pt) (hhi : hi ≤ Vm.trapframe)
    (hle : strict → newsz < 2 ^ 32 ∧ lo = pgRoundUp newsz ∧ hi = pgRoundUp p.sz ∧ lo ≤ hi)
    (hc : Cleared pt pt' lo hi) : Proc.Live strict { p with pagetable := some pt', sz := newsz } pt' := by
  have hfr : Framed pt' := by
    apply h.framed.of_leaf
    intro va hva hge
    rw [hc va hva, if_neg (by omega)]
  refine ⟨rfl, h.trapframe, hfr, h.vmas, fun hst => ?_⟩
  have hheap := h.heap hst
  obtain ⟨hsmall, rfl, rfl, hlohi⟩ := hle hst
  constructor
  · exact hsmall
  · intro va hva
    dsimp only at hva
    rw [hc va (lt_of_lt_trapframe (by omega)), if_neg (by omega)]
    exact hheap.mapped va (by omega)
  · intro va hge hlt hne
    dsimp only at hge
    rw [hc va (lt_of_lt_trapframe hlt)] at hne
    by_cases hin : pgRoundUp newsz ≤ va ∧ va < pgRoundUp p.sz
    · rw [if_pos hin] at hne
      exact absurd rfl hne
    · rw [if_neg hin] at hne
      exact hheap.covered va (by omega) hlt hne
  · intro k v hk
    exact le_trans hlohi (hheap.above k v hk)

def SbrkFits (p : Proc) (n : ℕ) : Prop :=
  0 < n → n < 2 ^ 31 → ∀ k v, p.vmas k = some v → pgRoundUp ((p.sz + n) % 2 ^ 32) ≤ v.addr

theorem pgRoundUp_mono {a b : ℕ} (h : a ≤ b) (hb : b ≤ maxVa) : pgRoundUp a ≤ pgRoundUp b := by
  rw [pgRoundUp_eq hb, pgRoundUp_eq (h.trans hb)]
  omega

theorem pgRoundUp_le_trapframe {n : ℕ} (h : n ≤ trapframe) : pgRoundUp n ≤ trapframe := by
  rw [pgRoundUp_eq (h.trans (by decide))]
  simp only [trapframe, trampoline, maxVa, pgSize] at *
  omega

theorem small_le_trapframe {n : ℕ} (h : n < 2 ^ 32) : n ≤ trapframe := by
  simp only [trapframe, trampoline, maxVa, pgSize]
  omega

theorem small_le_maxVa {n : ℕ} (h : n < 2 ^ 32) : n ≤ maxVa := by
  simp only [maxVa]
  omega

theorem pgRoundUp_small {n : ℕ} (h : n < 2 ^ 32) : pgRoundUp n ≤ trapframe :=
  pgRoundUp_le_trapframe (small_le_trapframe h)

theorem tokens_setSz (n : ℕ) : (l.mapProc (fun p => { p with sz := n })).tokens = l.tokens := by
  simp only [Local.tokens, Local.mapProc, Proc.tokens]

theorem wp_setSz {sz : ℕ} (h : Proc.Live strict { p with sz := sz % 2 ^ 32 } pt) :
    wp (ledger sys strict) ok (do
      modifyLocal (·.mapProc (fun p => { p with sz := sz % 2 ^ 32 }))
      return (0 : ℤ)) (.holding i p) (fun _ => Rest strict i) := by
  rw [wp_bind]
  apply wp_modifyLocal
  · exact tokens_setSz _
  · exact Rest.live h

theorem wp_growproc {n : ℕ} (lax : ¬ strict → ∀ e, ok e) (h : p.Live strict pt)
    (hfits : strict → SbrkFits p n) :
    wp (ledger sys strict) ok (growproc sys n) (.holding i p) (fun _ => Rest strict i) := by
  have hsz : strict → p.sz % 2 ^ 32 = p.sz := fun hst => Nat.mod_eq_of_lt (h.heap hst).small
  have hold : p.sz % 2 ^ 32 < 2 ^ 32 := Nat.mod_lt _ (by norm_num)
  have hnew : (p.sz % 2 ^ 32 + n) % 2 ^ 32 < 2 ^ 32 := Nat.mod_lt _ (by norm_num)
  have hkeep : Proc.Live strict { p with sz := p.sz % 2 ^ 32 % 2 ^ 32 } pt := by
    refine ⟨h.table, h.trapframe, h.framed, h.vmas, fun hst => ?_⟩
    rw [Nat.mod_mod, hsz hst]
    exact h.heap hst
  have htable : (Local.holding i p).table .own = some pt := h.table
  rw [growproc, wp_bind]
  apply wp_myproc
  dsimp only [Local.holding]
  by_cases hn : 0 < n ∧ n < 2 ^ 31
  · rw [if_pos hn, wp_bind]
    apply wp_uvmalloc lax htable h.framed.trapframe (small_le_trapframe hold)
    · by_cases hst : strict
      · right
        constructor
        · exact small_le_maxVa hnew
        · intro va hlo hhi
          rw [hsz hst] at hlo hhi
          by_contra hne
          have hle := pgRoundUp_small (n := (p.sz + n) % 2 ^ 32) (Nat.mod_lt _ (by norm_num))
          obtain ⟨k, v, hk, hc⟩ := (h.heap hst).covered va hlo (by omega) hne
          have := hfits hst hn.1 hn.2 k v hk
          have := hc.1
          omega
      · left
        exact lax hst _
    · intro _
      by_cases h0 : p.sz % 2 ^ 32 = 0
      · rw [if_pos h0]
        exact Rest.live h
      · rw [if_neg h0]
        exact wp_setSz hkeep
    · intro pt' hle _ hx
      rw [holding_setTable]
      have hlive : Proc.Live strict { p with pagetable := some pt', sz := (p.sz % 2 ^ 32 + n) % 2 ^ 32 } pt' := by
        apply h.grow hnew _ _ hx
        · intro hst
          constructor
          · rw [hsz hst]
          · exact pgRoundUp_mono hle (small_le_maxVa hnew)
        · intro hst
          rw [hsz hst]
          exact hfits hst hn.1 hn.2
      by_cases h0 : (p.sz % 2 ^ 32 + n) % 2 ^ 32 = 0
      · rw [if_pos h0]
        have hold0 : p.sz % 2 ^ 32 = 0 := by omega
        have hsame : ∀ va < 2 ^ 39, pt'.leaf va = pt.leaf va := by
          intro va hva
          apply hx.outside va hva
          rw [h0, hold0]
          omega
        exact Rest.live (h.congr hsame)
      · rw [if_neg h0]
        apply wp_setSz
        rw [Nat.mod_mod]
        exact hlive
    · intro pt' hleaf
      rw [if_pos rfl, holding_setTable]
      exact Rest.live (h.congr hleaf)
  · rw [if_neg hn]
    by_cases h0 : n = 0
    · rw [if_pos h0, wp_bind]
      exact wp_setSz hkeep
    · rw [if_neg h0, wp_bind]
      apply wp_uvmdealloc lax htable (small_le_trapframe hold)
      · intro hst va _ hhi
        rw [hsz hst] at hhi
        exact (h.heap hst).mapped va hhi
      · intro _
        exact wp_setSz hkeep
      · intro pt' hlt hc
        rw [holding_setTable]
        apply wp_setSz
        rw [Nat.mod_mod]
        apply h.shrink (pgRoundUp_small hold) _ hc
        intro hst
        refine ⟨hnew, rfl, by rw [hsz hst], ?_⟩
        exact pgRoundUp_mono hlt.le (small_le_maxVa hold)

theorem sysSbrk_spec {reg : UInt64} (lax : ¬ strict → ∀ e, ok e) (h : p.Live strict pt)
    (hfits : strict → SbrkFits p (reg.toNat % 2 ^ 32)) :
    wp (ledger sys strict) ok (sysSbrk sys reg) (.holding i p) (fun _ => Rest strict i) := by
  rw [sysSbrk, wp_bind]
  apply wp_myproc
  rw [wp_bind]
  apply wp_mono (wp_growproc lax h hfits)
  intro _ _ hrest
  exact hrest

end Xv6.Kernel
