import Xv6.Kernel.FdSpec

namespace Xv6.Kernel

open Lib Vm Prog
open Function (update update_of_ne update_self update_apply)

variable {sys : Sys} {strict : Prop} {ok : Panic → Prop} {l : Local} {p p' : Proc} {pt pt' : PageTable}
variable {i : Fin nProc} {k : Fin nVma} {v : Vma} {vmas : Fin nVma → Option Vma} {va : ℕ}

theorem findVma_eq {test : Vma → Bool} (h : findVma vmas test = some (k, v)) : vmas k = some v ∧ test v := by
  obtain ⟨j, -, hj⟩ := List.exists_of_findSome?_eq_some h
  obtain ⟨u, hu, hif⟩ := Option.bind_eq_some_iff.mp hj
  split_ifs at hif with htest
  cases hif
  exact ⟨hu, htest⟩

theorem findVma_none {test : Vma → Bool} (h : findVma vmas test = none) (hk : vmas k = some v) : ¬ test v := by
  have hj := List.findSome?_eq_none_iff.mp h k (List.mem_finRange k)
  rw [hk, Option.bind_some] at hj
  intro htest
  rw [if_pos htest] at hj
  cases hj

theorem Vma.Ok.end_eq (h : v.Ok) : (v.addr + v.length) % 2 ^ 64 = v.addr + v.length := by
  apply Nat.mod_eq_of_lt
  exact h.le.trans_lt (by decide)

theorem Heap.congr {sz : ℕ} (h : Heap pt sz vmas) (hleaf : ∀ va < 2 ^ 39, pt'.leaf va = pt.leaf va) :
    Heap pt' sz vmas := by
  have htf : trapframe < 2 ^ 39 := by decide
  have hsmall : pgRoundUp sz < 2 ^ 39 := by
    have := h.small
    rw [pgRoundUp_eq (this.le.trans (by decide))]
    omega
  refine ⟨h.small, fun va hva => ?_, fun va hlo hhi hne => ?_, h.above⟩
  · rw [hleaf va (by omega)]
    exact h.mapped va hva
  · apply h.covered va hlo hhi
    rwa [← hleaf va (by omega)]

theorem Proc.Live.congr (h : p.Live strict pt) (hleaf : ∀ va < 2 ^ 39, pt'.leaf va = pt.leaf va) :
    Proc.Live strict { p with pagetable := some pt' } pt' :=
  ⟨rfl, h.trapframe, h.framed.of_leaf (fun va hva _ => hleaf va hva), h.vmas, fun hs => (h.heap hs).congr hleaf⟩

theorem holding_setTable : (Local.holding i p).setTable .own (some pt') =
    .holding i { p with pagetable := some pt' } := rfl

theorem Proc.Live.faulted {pte : Pte} (h : p.Live strict pt) (hk : p.vmas k = some v)
    (hm : Mapped pt pt' va pte) (ha : va % pgSize = 0) (hlo : v.addr ≤ va) (hhi : va < v.addr + v.length) :
    Proc.Live strict { p with pagetable := some pt' } pt' := by
  have hok := h.vmas.each k v hk
  have htf : Vm.trapframe < 2 ^ 39 := by decide
  have hpage : ∀ a, a / pgSize = va / pgSize → v.addr ≤ a ∧ a < v.addr + v.length := by
    intro a heq
    have h1 := hok.addr
    have h2 := hok.length
    simp only [pgSize] at *
    omega
  have hle := hok.le
  have hother : ∀ a < 2 ^ 39, ¬ (v.addr ≤ a ∧ a < v.addr + v.length) → pt'.leaf a = pt.leaf a := by
    intro a ha' hout
    rw [hm.leaf a ha', if_neg (fun heq => hout (hpage a heq))]
  refine ⟨rfl, h.trapframe, h.framed.of_leaf (fun a ha' htrap => hother a ha' (by omega)), h.vmas, fun hs => ?_⟩
  have hheap := h.heap hs
  have habove := hheap.above k v hk
  change Heap pt' p.sz p.vmas
  refine ⟨hheap.small, fun a ha' => ?_, fun a hlo' hhi' hne => ?_, hheap.above⟩
  · rw [hother a (by omega) (by omega)]
    exact hheap.mapped a ha'
  · by_cases hin : v.addr ≤ a ∧ a < v.addr + v.length
    · exact ⟨k, v, hk, hin⟩
    · apply hheap.covered a hlo' hhi'
      rwa [← hother a (by omega) hin]

theorem vmaFault_spec {faultva cause : ℕ} (hfs : ∀ msg, ok (.fs msg)) (h : p.Live strict pt) :
    wp (ledger sys strict) ok (vmaFault sys faultva cause) (.holding i p) (fun _ => Rest strict i) := by
  have htable : (Local.holding i p).table .own = some pt := h.table
  rw [vmaFault, wp_bind]
  apply wp_myproc
  rw [show (Local.holding i p).proc = p from rfl]
  cases hfind : findVma p.vmas (fun v => v.addr ≤ faultva && faultva < (v.addr + v.length) % 2 ^ 64) with
  | none => exact Rest.live h
  | some x =>
    obtain ⟨k, v⟩ := x
    obtain ⟨hk, htest⟩ := findVma_eq hfind
    have hok := h.vmas.each k v hk
    simp only [hok.end_eq, Bool.and_eq_true, decide_eq_true_eq] at htest
    have hround : pgRoundDown faultva % pgSize = 0 := Nat.mul_mod_left _ _
    have hin : v.addr ≤ pgRoundDown faultva ∧ pgRoundDown faultva < v.addr + v.length := by
      have := hok.addr
      simp only [pgRoundDown, pgSize] at *
      omega
    have hlt : pgRoundDown faultva < maxVa := (hin.2.trans_le hok.le).trans (by decide)
    dsimp only
    by_cases hdeny : v.denies cause
    · rw [if_pos hdeny]
      exact Rest.live h
    rw [if_neg hdeny, wp_bind]
    apply wp_walk htable (Or.inl hlt)
    intro _
    rw [wp_bind]
    apply wp_pteAt htable
    intro _
    by_cases hpresent : (pt.node0 (pgRoundDown faultva)).isSome && (pt.leaf (pgRoundDown faultva)).isSome
    · rw [if_pos hpresent]
      exact Rest.live h
    have hnone : pt.leaf (pgRoundDown faultva) = none := by
      by_contra hne
      obtain ⟨pte, hpte⟩ := Option.ne_none_iff_exists'.mp hne
      obtain ⟨n, hn⟩ := PageTable.node0_of_leaf hpte
      exact hpresent (by simp [hn, hpte])
    rw [if_neg hpresent, wp_bind]
    apply wp_kalloc
    · exact Rest.live h
    intro mem hmem
    simp only [wp_bind]
    apply wp_fill
    apply wp_read
    intro _ _ _
    apply wp_fsCall hfs
    intro _
    apply wp_fsCall hfs
    intro r
    apply wp_fill
    have hgive : ∀ {l : Local} {Q : ℤ → Local → Prop}, Q (-1) l → wp (ledger sys strict) ok
        (do kfree sys mem (·.dropPage mem); return (-1 : ℤ)) (l.takePage mem) Q := by
      intro l Q hQ
      rw [wp_bind]
      apply wp_kfree hmem
      · rw [dropPage_takePage, tokens_takePage]
      · rwa [dropPage_takePage]
    by_cases hneg : r.1 < 0
    · rw [if_pos hneg]
      exact hgive (Rest.live h)
    rw [if_neg hneg, wp_bind]
    apply wp_mapUser htable rfl hround (Or.inl hlt) (Or.inl hnone)
    · exact fun _ _ => hin.2.trans_le hok.le
    · intro pt' _ hm
      rw [if_pos rfl]
      exact Rest.live (h.faulted hk hm hround hin.1 hin.2)
    · intro pt' hg
      apply hgive
      exact Rest.live (h.congr (fun va _ => hg.leaf va))

theorem wp_writeBack {pa : ℕ} {Q : Bool → Local → Prop} (hfs : ∀ msg, ok (.fs msg)) (hQ : ∀ b, Q b l) :
    wp (ledger sys strict) ok (writeBack sys v va pa) l Q := by
  rw [writeBack, wp_bind]
  apply wp_read
  intro s _ _
  rw [wp_bind]
  apply wp_fsCall hfs
  intro _
  rw [wp_bind]
  apply wp_fsStep hfs
  exact fun n => hQ _

theorem wp_unmapOne {pte : Pte} {Q : Unit → Local → Prop} (lax : ¬ strict → ∀ e, ok e)
    (h : l.table .own = some pt) (ha : va % pgSize = 0) (htf : va < trapframe) (hleaf : pt.leaf va = some pte)
    (hQ : ∀ pt', Cleared pt pt' va (va + pgSize) → Q () (l.setTable .own (some pt'))) :
    wp (ledger sys strict) ok (uvmunmap sys .own va 1 true) l Q := by
  have hlt : ∀ a < va + pgSize, a < trapframe := by
    intro a hlt
    simp only [trapframe, trampoline, maxVa, pgSize] at *
    omega
  apply wp_uvmunmap lax h ha
  · rw [Nat.one_mul]
    intro _ a hlo hhi
    have htf' := hlt a hhi
    refine ⟨htf'.trans (by decide), ?_⟩
    have hpage : a / pgSize = va / pgSize := by simp only [pgSize] at *; omega
    rw [leaf_eq_of_div (htf.trans (by decide)) (htf'.trans (by decide)) hpage, hleaf]
    simp
  · rw [Nat.one_mul]
    intro a _ hhi _ _
    exact iff_of_true rfl (hlt a hhi)
  · rwa [Nat.one_mul]

theorem Cleared.trans {lo mid hi : ℕ} {pt'' : PageTable} (h : Cleared pt pt' lo mid) (h' : Cleared pt' pt'' mid hi)
    (hlo : lo ≤ mid) (hhi : mid ≤ hi) : Cleared pt pt'' lo hi := by
  intro va hva
  rw [h' va hva, h va hva]
  by_cases h1 : mid ≤ va ∧ va < hi
  · rw [if_pos h1, if_pos (by omega)]
  · rw [if_neg h1]
    by_cases h2 : lo ≤ va ∧ va < mid
    · rw [if_pos h2, if_pos (by omega)]
    · rw [if_neg h2, if_neg (by omega)]

theorem Cleared.absent {a : ℕ} (hnone : pt.leaf a = none) (ha : a % pgSize = 0) (hlt : a < trapframe) :
    Cleared pt pt a (a + pgSize) := by
  intro va hva
  split_ifs with hin
  · have hpage : va / pgSize = a / pgSize := by simp only [pgSize] at *; omega
    rw [leaf_eq_of_div (hlt.trans (by decide)) hva hpage, hnone]
  · rfl

theorem wp_vmaUnmapLoop {n : ℕ} {error : ℤ} {Q : ℤ → Local → Prop} (lax : ¬ strict → ∀ e, ok e)
    (hfs : ∀ msg, ok (.fs msg)) (h : l.table .own = some pt) (ha : va % pgSize = 0)
    (hle : va + n * pgSize ≤ trapframe)
    (hQ : ∀ error pt', Cleared pt pt' va (va + n * pgSize) → Q error (l.setTable .own (some pt'))) :
    wp (ledger sys strict) ok (vmaUnmapLoop sys v n va error) l Q := by
  induction n generalizing va l pt error with
  | zero =>
    have := hQ error pt (fun a _ => by rw [if_neg (by omega)])
    rwa [setTable_self h] at this
  | succ n ih =>
    have hstep : va + pgSize + n * pgSize = va + (n + 1) * pgSize := by ring
    have htf : va < trapframe := by
      simp only [pgSize] at hle
      omega
    have hrest : ∀ pt' error, Cleared pt pt' va (va + pgSize) →
        wp (ledger sys strict) ok (vmaUnmapLoop sys v n (va + pgSize) error) (l.setTable .own (some pt')) Q := by
      intro pt' error hc
      apply ih (table_setTable h)
      · simp only [pgSize] at *
        omega
      · rwa [hstep]
      · intro error' pt'' hc'
        rw [setTable_setTable]
        apply hQ
        rw [← hstep]
        exact hc.trans hc' (Nat.le_add_right _ _) (Nat.le_add_right _ _)
    rw [vmaUnmapLoop, wp_bind]
    apply wp_walk h (Or.inl (htf.trans (by decide)))
    intro _
    rw [wp_bind]
    apply wp_pteAt h
    intro _
    cases hleaf : pt.leaf va with
    | none =>
      have hskip := hrest pt error (Cleared.absent hleaf ha htf)
      rw [setTable_self h] at hskip
      cases (pt.node0 va).isSome <;> exact hskip
    | some pte =>
      obtain ⟨node, hn⟩ := PageTable.node0_of_leaf hleaf
      rw [hn]
      simp only [Option.isSome_some]
      have hunmap : ∀ written : Bool, wp (ledger sys strict) ok (do
          uvmunmap sys .own va 1 true
          vmaUnmapLoop sys v n (va + pgSize) (if written then error else -1)) l Q := by
        intro written
        rw [wp_bind]
        apply wp_unmapOne lax h ha htf hleaf
        exact fun pt' hc => hrest pt' _ hc
      by_cases hw : v.writesBack
      · rw [if_pos hw, wp_bind]
        exact wp_writeBack hfs hunmap
      · rw [if_neg hw]
        exact hunmap true

def unmapTarget (vmas : Fin nVma → Option Vma) (addr length : ℕ) : Option (Fin nVma × Vma) :=
  let last := (addr + pgRoundUp length) % 2 ^ 64
  if addr % pgSize ≠ 0 ∨ length = 0 ∨ length > maxVa ∨ last < addr then none
  else (findVma vmas (fun v => v.addr ≤ addr && last ≤ (v.addr + v.length) % 2 ^ 64)).filter
    (fun x => addr = x.2.addr || last = (x.2.addr + x.2.length) % 2 ^ 64)

def Vma.trim (v : Vma) (addr len : ℕ) : Option Vma :=
  if addr = v.addr ∧ addr + len = v.addr + v.length then none
  else if addr = v.addr then some (v.dropFirst len)
  else some (v.dropLast len)

structure Trims (v : Vma) (addr len : ℕ) : Prop where
  aligned : addr % pgSize = 0
  whole : len % pgSize = 0
  pos : 0 < len
  lo : v.addr ≤ addr
  hi : addr + len ≤ v.addr + v.length
  edge : addr = v.addr ∨ addr + len = v.addr + v.length

theorem pgRoundUp_pos {n : ℕ} (h : n ≠ 0) (hmax : n ≤ maxVa) : 0 < pgRoundUp n := by
  rw [pgRoundUp_eq hmax]
  omega

theorem unmapTarget_eq {addr length : ℕ} (hok : VmasOk vmas) (h : unmapTarget vmas addr length = some (k, v)) :
    vmas k = some v ∧ Trims v addr (pgRoundUp length) ∧
      (addr + pgRoundUp length) % 2 ^ 64 = addr + pgRoundUp length := by
  unfold unmapTarget at h
  simp only at h
  split_ifs at h with hbad
  rw [not_or, not_or, not_or, not_not, not_lt, not_lt] at hbad
  obtain ⟨ha, hne, hmax, hwrap⟩ := hbad
  rw [Option.filter_eq_some_iff] at h
  obtain ⟨hfind, hedge⟩ := h
  obtain ⟨hk, htest⟩ := findVma_eq hfind
  have hv := hok.each k v hk
  have hpos := pgRoundUp_pos hne hmax
  have hlen := pgRoundUp_mod length
  have hle := hv.le
  have hbound : pgRoundUp length ≤ maxVa := by
    rw [pgRoundUp_eq hmax]
    simp only [maxVa] at *
    omega
  simp only [hv.end_eq, Bool.and_eq_true, Bool.or_eq_true, decide_eq_true_eq] at htest hedge
  have hlast : (addr + pgRoundUp length) % 2 ^ 64 = addr + pgRoundUp length := by
    simp only [trapframe, trampoline, maxVa, pgSize] at *
    omega
  rw [hlast] at htest hedge
  exact ⟨hk, ⟨ha, hlen, hpos, htest.1, htest.2, hedge⟩, hlast⟩

theorem tokens_setVma {g : Proc → Proc} {o : Option Vma} (hk : l.proc.vmas k = some v)
    (hg : g l.proc = l.proc.setVma k o) : (l.mapProc g).tokens + ofFiles {.map v.file} =
      l.tokens + o.elim 0 (fun v => ofFiles {.map v.file}) := by
  have hs := Proc.tokens_setVma (p := l.proc) (k := k) o
  rw [hk, ← hg] at hs
  exact tokens_mapProc g hs

theorem wp_vmaUnmap {addr length : ℕ} {Q : ℤ → Local → Prop} (lax : ¬ strict → ∀ e, ok e)
    (hfs : ∀ msg, ok (.fs msg)) (h : l.table .own = some pt) (hok : VmasOk l.proc.vmas)
    (hfail : unmapTarget l.proc.vmas addr length = none → Q (-1) l)
    (hdone : ∀ k v error pt', unmapTarget l.proc.vmas addr length = some (k, v) →
      Cleared pt pt' addr (addr + pgRoundUp length) →
      Q error ((l.setTable .own (some pt')).mapProc (·.setVma k (v.trim addr (pgRoundUp length))))) :
    wp (ledger sys strict) ok (vmaUnmap sys addr length) l Q := by
  unfold vmaUnmap
  by_cases hargs : addr % pgSize ≠ 0 ∨ length = 0 ∨ length > maxVa
  · rw [if_pos hargs]
    apply hfail
    rw [unmapTarget, if_pos (by tauto)]
  rw [if_neg hargs]
  by_cases hwrap : (addr + pgRoundUp length) % 2 ^ 64 < addr
  · simp only [if_pos hwrap]
    apply hfail
    rw [unmapTarget, if_pos (by tauto)]
  simp only [if_neg hwrap, wp_bind]
  apply wp_myproc
  have htarget : unmapTarget l.proc.vmas addr length =
      (findVma l.proc.vmas (fun v => v.addr ≤ addr && (addr + pgRoundUp length) % 2 ^ 64 ≤
        (v.addr + v.length) % 2 ^ 64)).filter
      (fun x => addr = x.2.addr || (addr + pgRoundUp length) % 2 ^ 64 = (x.2.addr + x.2.length) % 2 ^ 64) := by
    rw [unmapTarget, if_neg (by tauto)]
  cases hfind : findVma l.proc.vmas (fun v => v.addr ≤ addr && (addr + pgRoundUp length) % 2 ^ 64 ≤
      (v.addr + v.length) % 2 ^ 64) with
  | none =>
    apply hfail
    rw [htarget, hfind]
    rfl
  | some x =>
    obtain ⟨k, v⟩ := x
    rw [hfind, Option.filter_some] at htarget
    dsimp only
    by_cases hedge : addr ≠ v.addr ∧ (addr + pgRoundUp length) % 2 ^ 64 ≠ (v.addr + v.length) % 2 ^ 64
    · rw [if_pos hedge]
      apply hfail
      rw [htarget, if_neg (by simpa using hedge)]
    rw [if_neg hedge, wp_bind]
    rw [if_pos (by simpa [or_iff_not_and_not] using hedge)] at htarget
    obtain ⟨hk, ht, hlast⟩ := unmapTarget_eq hok htarget
    have hv := hok.each k v hk
    have hn : addr + (addr + pgRoundUp length - addr) / pgSize * pgSize = addr + pgRoundUp length := by
      have := ht.whole
      simp only [pgSize] at *
      omega
    rw [hlast]
    apply wp_vmaUnmapLoop lax hfs h ht.aligned
    · rw [hn]
      exact ht.hi.trans hv.le
    rw [hn]
    intro error pt' hc
    have hQ := hdone k v error pt' htarget hc
    have hk' : (l.setTable .own (some pt')).proc.vmas k = some v := hk
    rw [Vma.trim] at hQ
    rw [hv.end_eq, wp_bind]
    by_cases hwhole : addr = v.addr ∧ addr + pgRoundUp length = v.addr + v.length
    · rw [if_pos hwhole] at hQ
      rw [if_pos hwhole]
      apply wp_fileclose (r := .map v.file) hfs
      · have htok := tokens_setVma (g := (·.setVma k none)) hk' rfl
        exact htok.trans (add_zero _)
      · exact hQ
    · rw [if_neg hwhole] at hQ
      rw [if_neg hwhole]
      by_cases hfirst : addr = v.addr
      · rw [if_pos hfirst] at hQ
        rw [if_pos hfirst]
        apply wp_modifyLocal _ hQ
        exact add_right_cancel (tokens_setVma (g := (·.setVma k (some (v.dropFirst _)))) hk' rfl)
      · rw [if_neg hfirst] at hQ
        rw [if_neg hfirst]
        apply wp_modifyLocal _ hQ
        exact add_right_cancel (tokens_setVma (g := (·.setVma k (some (v.dropLast _)))) hk' rfl)

theorem Vma.trim_eq {addr len : ℕ} {u : Vma} (h : Trims v addr len) (hu : v.trim addr len = some u) :
    u.file = v.file ∧ u.addr + u.length ≤ v.addr + v.length ∧ v.addr ≤ u.addr ∧ 0 < u.length ∧
      u.addr % pgSize = v.addr % pgSize ∧ u.offset % pgSize = v.offset % pgSize ∧
      u.length % pgSize = v.length % pgSize ∧
      ∀ va, v.Covers va → ¬ (addr ≤ va ∧ va < addr + len) → u.Covers va := by
  obtain ⟨ha, hlen, hpos, hlo, hhi, hedge⟩ := h
  have hpg : pgSize = 4096 := rfl
  rw [hpg] at ha hlen ⊢
  unfold Vma.trim at hu
  split_ifs at hu with hwhole hfirst
  · cases hu
    unfold Vma.Covers
    change _ ∧ v.addr + len + (v.length - len) ≤ _ ∧ v.addr ≤ v.addr + len ∧ 0 < v.length - len ∧
      (v.addr + len) % 4096 = _ ∧ (v.offset + len) % 4096 = _ ∧ (v.length - len) % 4096 = _ ∧
      ∀ va, _ → _ → v.addr + len ≤ va ∧ va < v.addr + len + (v.length - len)
    refine ⟨rfl, by omega, by omega, by omega, by omega, by omega, by omega, fun va hc hout => by omega⟩
  · cases hu
    unfold Vma.Covers
    change _ ∧ v.addr + (v.length - len) ≤ _ ∧ v.addr ≤ v.addr ∧ 0 < v.length - len ∧
      v.addr % 4096 = _ ∧ v.offset % 4096 = _ ∧ (v.length - len) % 4096 = _ ∧
      ∀ va, _ → _ → v.addr ≤ va ∧ va < v.addr + (v.length - len)
    refine ⟨rfl, by omega, le_rfl, by omega, rfl, rfl, by omega, fun va hc hout => by omega⟩

theorem Vma.trim_offset {addr len : ℕ} {u : Vma} (hu : v.trim addr len = some u) :
    u.offset + v.addr = v.offset + u.addr ∧ u.flags = v.flags ∧ u.prot = v.prot := by
  unfold Vma.trim at hu
  split_ifs at hu
  · cases hu
    refine ⟨?_, rfl, rfl⟩
    change v.offset + len + v.addr = v.offset + (v.addr + len)
    omega
  · cases hu
    exact ⟨rfl, rfl, rfl⟩

theorem Vma.trim_none {addr len : ℕ} (hu : v.trim addr len = none) (va : ℕ) (hc : v.Covers va) :
    addr ≤ va ∧ va < addr + len := by
  unfold Vma.trim at hu
  split_ifs at hu with hwhole
  simp only [Vma.Covers] at hc
  omega

theorem VmasOk.trim {addr len : ℕ} (h : VmasOk vmas) (hk : vmas k = some v) (ht : Trims v addr len) :
    VmasOk (update vmas k (v.trim addr len)) := by
  have hv := h.each k v hk
  have hnew {j : Fin nVma} {u : Vma} (hj : update vmas k (v.trim addr len) j = some u) :
      ∃ w, vmas j = some w ∧ u.addr + u.length ≤ w.addr + w.length ∧ w.addr ≤ u.addr := by
    by_cases hjk : j = k
    · subst hjk
      rw [update_self] at hj
      have htrim := Vma.trim_eq ht hj
      exact ⟨v, hk, htrim.2.1, htrim.2.2.1⟩
    · rw [update_of_ne hjk] at hj
      exact ⟨u, hj, le_rfl, le_rfl⟩
  constructor
  · intro j u hj
    by_cases hjk : j = k
    · subst hjk
      rw [update_self] at hj
      obtain ⟨-, hend, hstart, hpos, h1, h2, h3, -⟩ := Vma.trim_eq ht hj
      exact ⟨h1.trans hv.addr, h2.trans hv.offset, h3.trans hv.length, hpos, hend.trans hv.le⟩
    · rw [update_of_ne hjk] at hj
      exact h.each j u hj
  · intro j j' u u' hj hj' hne
    obtain ⟨w, hw, hend, hstart⟩ := hnew hj
    obtain ⟨w', hw', hend', hstart'⟩ := hnew hj'
    have := h.disjoint j j' w w' hw hw' hne
    omega

theorem Proc.Live.trim {addr len : ℕ} (h : p.Live strict pt) (hk : p.vmas k = some v) (ht : Trims v addr len)
    (hc : Cleared pt pt' addr (addr + len)) :
    Proc.Live strict (Proc.setVma { p with pagetable := some pt' } k (v.trim addr len)) pt' := by
  have htf : Vm.trapframe < 2 ^ 39 := by decide
  have hv := h.vmas.each k v hk
  have hend : addr + len ≤ Vm.trapframe := ht.hi.trans hv.le
  refine ⟨rfl, h.trapframe, h.framed.of_leaf (fun va hva hge => ?_), h.vmas.trim hk ht, fun hs => ?_⟩
  · rw [hc va hva, if_neg (by omega)]
  have hheap := h.heap hs
  have habove := hheap.above k v hk
  have hlo := ht.lo
  change Heap pt' p.sz (update p.vmas k (v.trim addr len))
  refine ⟨hheap.small, fun va hva => ?_, fun va hge hlt hne => ?_, fun j u hj => ?_⟩
  · rw [hc va (by omega), if_neg (by omega)]
    exact hheap.mapped va hva
  · rw [hc va (by omega)] at hne
    split_ifs at hne with hin
    · exact absurd rfl hne
    obtain ⟨j, w, hj, hcov⟩ := hheap.covered va hge hlt hne
    by_cases hjk : j = k
    · subst hjk
      rw [hk] at hj
      cases hj
      cases htrim : v.trim addr len with
      | none => exact absurd (Vma.trim_none htrim va hcov) hin
      | some u =>
        exact ⟨j, u, update_self _ _ _, (Vma.trim_eq ht htrim).2.2.2.2.2.2.2 va hcov hin⟩
    · exact ⟨j, w, (update_of_ne hjk _ _).trans hj, hcov⟩
  · by_cases hjk : j = k
    · subst hjk
      rw [update_self] at hj
      exact habove.trans (Vma.trim_eq ht hj).2.2.1
    · rw [update_of_ne hjk] at hj
      exact hheap.above j u hj

theorem sysMunmap_spec {addr length : UInt64} (lax : ¬ strict → ∀ e, ok e) (hfs : ∀ msg, ok (.fs msg))
    (h : p.Live strict pt) :
    wp (ledger sys strict) ok (sysMunmap sys addr length) (.holding i p) (fun _ => Rest strict i) := by
  rw [sysMunmap, wp_ite]
  split_ifs with hzero
  · exact Rest.live h
  apply wp_vmaUnmap lax hfs (show (Local.holding i p).table .own = some pt from h.table) h.vmas
  · exact fun _ => Rest.live h
  · intro k v error pt' htarget hc
    obtain ⟨hk, ht, -⟩ := unmapTarget_eq h.vmas htarget
    exact Rest.live (h.trim hk ht hc)

theorem pgRoundUp_self {n : ℕ} (h : n % pgSize = 0) (hmax : n ≤ maxVa) : pgRoundUp n = n := by
  rw [pgRoundUp_eq hmax]
  simp only [pgSize] at h
  omega

theorem Vma.Ok.round (h : v.Ok) : pgRoundUp v.length = v.length := by
  have hle := h.le
  have hmax : Vm.trapframe < maxVa := by decide
  exact pgRoundUp_self h.length (by omega)

theorem unmapTarget_whole (h : VmasOk vmas) (hk : vmas k = some v) :
    unmapTarget vmas v.addr v.length = some (k, v) := by
  have hv := h.each k v hk
  have hle := hv.le
  have hmax : Vm.trapframe < maxVa ∧ maxVa < 2 ^ 64 := by decide
  have hround := hv.round
  have hfind : findVma vmas (fun u => u.addr ≤ v.addr && v.addr + v.length ≤ (u.addr + u.length) % 2 ^ 64) =
      some (k, v) := by
    cases hf : findVma vmas (fun u => u.addr ≤ v.addr && v.addr + v.length ≤ (u.addr + u.length) % 2 ^ 64) with
    | none => exact absurd (by simp only [hv.end_eq, le_refl, decide_true, Bool.and_self]) (findVma_none hf hk)
    | some x =>
      obtain ⟨j, u⟩ := x
      obtain ⟨hj, htest⟩ := findVma_eq hf
      simp only [(h.each j u hj).end_eq, Bool.and_eq_true, decide_eq_true_eq] at htest
      by_cases hjk : j = k
      · subst hjk
        rw [hk] at hj
        cases hj
        rfl
      · have hpos := hv.pos
        have := h.disjoint j k u v hj hk hjk
        omega
  rw [unmapTarget, if_neg]
  · simp only [hround, hv.end_eq, hfind, Option.filter_some, decide_true, Bool.true_or, ↓reduceIte]
  · rw [hround, hv.end_eq]
    have h1 := hv.addr
    have h2 := hv.pos
    omega

structure Kept (p p' : Proc) : Prop where
  sz : p'.sz = p.sz
  ofile : p'.ofile = p.ofile
  cwd : p'.cwd = p.cwd
  trapframe : p'.trapframe = p.trapframe

theorem wp_vmaUnmapAll {Q : Unit → Local → Prop} (lax : ¬ strict → ∀ e, ok e) (hfs : ∀ msg, ok (.fs msg))
    (h : l.proc.Live strict pt)
    (hQ : ∀ p' pt', p'.Live strict pt' → Kept l.proc p' → (∀ k, p'.vmas k = none) →
      Q () { l with proc := p' }) :
    wp (ledger sys strict) ok (vmaUnmapAll sys) l Q := by
  rw [vmaUnmapAll]
  apply wp_mono (wp_forM (I := fun done l' => ∃ p' pt', p'.Live strict pt' ∧ Kept l.proc p' ∧
    (∀ k ∈ done, p'.vmas k = none) ∧ l' = { l with proc := p' }) _ _)
  · rintro _ l' ⟨p', pt', hlive, hkept, hnone, rfl⟩
    exact hQ p' pt' hlive hkept (fun k => hnone k (List.mem_finRange k))
  · exact ⟨l.proc, pt, h, ⟨rfl, rfl, rfl, rfl⟩, fun k hk => absurd hk List.not_mem_nil, rfl⟩
  · rintro done k rest - l' ⟨p', pt', hlive, hkept, hnone, rfl⟩
    rw [wp_bind]
    apply wp_myproc
    dsimp only
    cases hk : p'.vmas k with
    | none =>
      refine ⟨p', pt', hlive, hkept, fun j hj => ?_, rfl⟩
      rcases List.mem_append.mp hj with hj | hj
      · exact hnone j hj
      · rwa [List.mem_singleton.mp hj]
    | some v =>
      have hv := hlive.vmas.each k v hk
      have htarget := unmapTarget_whole hlive.vmas hk
      simp only [wp_bind]
      apply wp_vmaUnmap lax hfs (show Local.table { l with proc := p' } .own = some pt' from hlive.table)
        hlive.vmas
      · intro hnot
        rw [htarget] at hnot
        cases hnot
      intro k' v' error pt'' htarget' hc
      rw [htarget] at htarget'
      cases htarget'
      have ht := (unmapTarget_eq hlive.vmas htarget).2.1
      have htrim : v.trim v.addr (pgRoundUp v.length) = none := by
        rw [Vma.trim, hv.round, if_pos ⟨rfl, rfl⟩]
      refine ⟨_, pt'', hlive.trim hk ht hc, ⟨hkept.sz, hkept.ofile, hkept.cwd, hkept.trapframe⟩, fun j hj => ?_, rfl⟩
      change update p'.vmas k _ j = none
      rw [htrim, update_apply]
      split_ifs with hjk
      · rfl
      · exact hnone j ((List.mem_append.mp hj).resolve_right (by simpa using hjk))

theorem foldl_lowest (vmas : Fin nVma → Option Vma) (ks : List (Fin nVma)) (low : ℕ) :
    let r := ks.foldl (fun low k => match vmas k with
      | some v => if v.addr < low then v.addr else low
      | none => low) low
    r ≤ low ∧ (∀ k ∈ ks, ∀ v, vmas k = some v → r ≤ v.addr) ∧ (r = low ∨ ∃ k v, vmas k = some v ∧ r = v.addr) := by
  induction ks generalizing low with
  | nil => exact ⟨le_rfl, fun k hk => absurd hk List.not_mem_nil, Or.inl rfl⟩
  | cons k ks ih =>
    simp only [List.foldl_cons]
    cases hk : vmas k with
    | none =>
      obtain ⟨h1, h2, h3⟩ := ih low
      refine ⟨h1, fun j hj v hv => ?_, h3⟩
      rcases List.mem_cons.mp hj with rfl | hj
      · rw [hk] at hv
        cases hv
      · exact h2 j hj v hv
    | some u =>
      have hcons {r : ℕ} (hu : r ≤ u.addr) (hks : ∀ j ∈ ks, ∀ v, vmas j = some v → r ≤ v.addr) :
          ∀ j ∈ k :: ks, ∀ v, vmas j = some v → r ≤ v.addr := by
        intro j hj v hv
        rcases List.mem_cons.mp hj with rfl | hj
        · rw [hk] at hv
          cases hv
          exact hu
        · exact hks j hj v hv
      dsimp only
      by_cases hlow : u.addr < low
      · rw [if_pos hlow]
        obtain ⟨h1, h2, h3⟩ := ih u.addr
        refine ⟨h1.trans hlow.le, hcons h1 h2, Or.inr ?_⟩
        rcases h3 with h3 | h3
        · exact ⟨k, u, hk, h3⟩
        · exact h3
      · rw [if_neg hlow]
        obtain ⟨h1, h2, h3⟩ := ih low
        exact ⟨h1, hcons (h1.trans (by omega)) h2, h3⟩

theorem Proc.lowest_spec (h : VmasOk p.vmas) : p.lowest ≤ Vm.trapframe ∧ p.lowest % pgSize = 0 ∧
    ∀ k v, p.vmas k = some v → p.lowest ≤ v.addr := by
  obtain ⟨h1, h2, h3⟩ := foldl_lowest p.vmas (List.finRange nVma) Vm.trapframe
  refine ⟨h1, ?_, fun k v hk => h2 k (List.mem_finRange k) v hk⟩
  rcases h3 with h3 | ⟨k, v, hk, h3⟩
  · rw [show p.lowest = Vm.trapframe from h3]
    decide
  · rw [show p.lowest = v.addr from h3]
    exact (h.each k v hk).addr

theorem freeVma_eq (h : p.freeVma = some k) : p.vmas k = none := by
  have := List.find?_some h
  simpa using this

theorem VmasOk.insert {u : Vma} (h : VmasOk p.vmas) (hlo : u.addr % pgSize = 0) (hoff : u.offset % pgSize = 0)
    (hlen : u.length % pgSize = 0) (hpos : 0 < u.length) (hend : u.addr + u.length = p.lowest) :
    VmasOk (update p.vmas k (some u)) := by
  obtain ⟨htf, -, hlow⟩ := Proc.lowest_spec h
  have hother {j : Fin nVma} {w : Vma} (hj : update p.vmas k (some u) j = some w) (hjk : j ≠ k) :
      p.vmas j = some w := by rwa [update_of_ne hjk] at hj
  have hself {w : Vma} (hj : update p.vmas k (some u) k = some w) : u = w := by
    rw [update_self] at hj
    exact Option.some_inj.mp hj
  constructor
  · intro j w hj
    by_cases hjk : j = k
    · subst hjk
      rw [← hself hj]
      exact ⟨hlo, hoff, hlen, hpos, hend.le.trans htf⟩
    · exact h.each j w (hother hj hjk)
  · intro j j' w w' hj hj' hne
    by_cases hjk : j = k
    · subst hjk
      have := hlow j' w' (hother hj' hne.symm)
      rw [← hself hj]
      omega
    · by_cases hjk' : j' = k
      · subst hjk'
        have := hlow j w (hother hj hjk)
        rw [← hself hj']
        omega
      · exact h.disjoint j j' w w' (hother hj hjk) (hother hj' hjk') hne

theorem Proc.Live.mmap {u : Vma} (h : p.Live strict pt) (hk : p.vmas k = none) (hlo : u.addr % pgSize = 0)
    (hoff : u.offset % pgSize = 0) (hlen : u.length % pgSize = 0) (hpos : 0 < u.length)
    (hend : u.addr + u.length = p.lowest) (habove : pgRoundUp p.sz ≤ u.addr) :
    Proc.Live strict (p.setVma k (some u)) pt := by
  refine ⟨h.table, h.trapframe, h.framed, h.vmas.insert hlo hoff hlen hpos hend, fun hs => ?_⟩
  have hheap := h.heap hs
  refine ⟨hheap.small, hheap.mapped, fun va h1 h2 h3 => ?_, fun j w hj => ?_⟩
  · obtain ⟨j, w, hj, hc⟩ := hheap.covered va h1 h2 h3
    have hjk : j ≠ k := by
      rintro rfl
      rw [hk] at hj
      cases hj
    exact ⟨j, w, (update_of_ne hjk _ _).trans hj, hc⟩
  · by_cases hjk : j = k
    · subst hjk
      have hu : update p.vmas j (some u) j = some w := hj
      rw [update_self] at hu
      cases hu
      exact habove
    · have hj' : update p.vmas k (some u) j = some w := hj
      rw [update_of_ne hjk] at hj'
      exact hheap.above j w hj'

theorem tokens_putVma {u : Vma} (hk : l.proc.vmas k = none) :
    (l.mapProc (·.setVma k (some u))).tokens = l.tokens + ofFiles {.map u.file} := by
  have hs := Proc.tokens_setVma (p := l.proc) (k := k) (some u)
  rw [hk] at hs
  exact (add_zero _).symm.trans (tokens_mapProc (·.setVma k (some u)) hs)

theorem sysMmap_spec {requested length prot flags fd offset : UInt64} (h : p.Live strict pt) :
    wp (ledger sys strict) ok (sysMmap requested length prot flags fd offset) (.holding i p)
      (fun _ => Rest strict i) := by
  apply wp_step
  intro s rest hs
  have hstay : (ledger sys strict).inv s ((ledger sys strict).tok (Local.holding i p) + rest) ∧
      Rest strict i (.holding i p) := ⟨hs, Rest.live h⟩
  simp only [show (Local.holding i p).proc = p from rfl]
  cases harg : p.argfd fd with
  | none => exact hstay
  | some x =>
    obtain ⟨fd', f⟩ := x
    have hmem (T : Tokens) : .ref f ∈ ((Local.holding i p).tokens + T).2.1 :=
      Multiset.mem_add.mpr (Or.inl (ref_mem_tokens (argfd_eq harg)))
    have hpos : 0 < (s.ftable f).ref := by
      have hfiles : FilesOk s ((Local.holding i p).tokens + (rest + s.parked)).2.1 := by
        rw [← add_assoc]
        exact hs.balanced.files
      exact hfiles.ref_pos (hmem _)
    cases hfree : p.freeVma with
    | none =>
      dsimp only
      split_ifs <;> exact hstay
    | some k =>
      dsimp only
      split_ifs with hargs hroom href
      · exact hstay
      · exact absurd href (by omega)
      · rw [not_or, not_lt, not_lt] at hroom
        obtain ⟨-, -, hne, hmax, -, -, htype, -⟩ := hargs
        have hlen := pgRoundUp_mod length.toNat
        have halign := (Proc.lowest_spec h.vmas).2.1
        refine ⟨?_, Rest.live (h.mmap (freeVma_eq hfree) ?_ rfl hlen (pgRoundUp_pos hne hmax) ?_ hroom.2)⟩
        · apply KInv.exchange hs
          · rfl
          · intro T hb
            rw [show (ledger sys strict).tok _ = _ from tokens_putVma (freeVma_eq hfree), add_right_comm]
            exact hb.filedup (hmem T) (by simp) (Or.inr ⟨rfl, htype⟩)
        · simp only [pgSize] at *
          omega
        · dsimp only
          omega
      · exact hstay

end Xv6.Kernel
